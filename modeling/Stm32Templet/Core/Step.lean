import Stm32Templet.Core.Invariant

/-! # Steps of the kernel

Every event that is enabled has a result if its contract is kept, and preserves the invariant
(`Machine.Inv.step`).  `Machine.Acts` has the steps of the model that it is. -/

namespace Stm32Templet.Core

open Bitmap Linked Os Runs

variable {k : Kern} {A A' : Model} {m : Machine} {x : Exit} {c : Call} {as : List Act} {i : ℕ}

theorem Model.exec_one_iff {a : Act} :
    exec Model.step A [a] = some A' ↔ A.Allowed a ∧ A' = A.after a := by
  rw [exec_cons]
  constructor
  · rintro ⟨B, hB, hA'⟩
    obtain rfl := Option.some.inj hA'
    exact step_eq_some.mp hB
  · exact fun h => ⟨A', step_eq_some.mpr h, rfl⟩

theorem Exit.of_goOn {s : Section} (hx : x = x.kern.goOn s) : x.pend = none ∧ x.sec = some s := by
  rw [hx]
  exact ⟨rfl, rfl⟩

theorem schedule_eq (k : Kern) : ∃ prio high pend, schedule k =
    { k with OSPrioHighRdy := prio, OSTCBHighRdy := high, pendSV := pend } := by
  unfold schedule
  simp only
  split
  · exact ⟨_, _, _, rfl⟩
  · exact ⟨_, _, _, rfl⟩

theorem osSched_eq (k : Kern) : ∃ prio high pend, osSched k =
    { k with OSPrioHighRdy := prio, OSTCBHighRdy := high, pendSV := pend } := by
  unfold osSched
  split
  · split
    · exact schedule_eq k
    · exact ⟨_, _, _, rfl⟩
  · exact ⟨_, _, _, rfl⟩

theorem osIntExit_eq (k : Kern) : ∃ int prio high pend, osIntExit k =
    { k with OSIntNesting := int, OSPrioHighRdy := prio, OSTCBHighRdy := high,
             pendSV := pend } := by
  have hexit : ∀ int, ∃ prio high pend, (if int = 0 then
      if k.OSLockNesting = 0 then schedule { k with OSIntNesting := int }
      else { k with OSIntNesting := int } else { k with OSIntNesting := int }) =
      { k with
        OSIntNesting := int, OSPrioHighRdy := prio, OSTCBHighRdy := high, pendSV := pend } := by
    intro int
    split
    · split
      · exact schedule_eq _
      · exact ⟨_, _, _, rfl⟩
    · exact ⟨_, _, _, rfl⟩
  unfold osIntExit
  simp only
  split
  · split
    · exact ⟨_, hexit _⟩
    · exact ⟨_, hexit _⟩
  · exact ⟨_, _, _, _, rfl⟩

theorem tickTcb_eq (i : ℕ) (k : Kern) :
    ∃ tbl rdy, tickTcb i k = { k with OSTCBTbl := tbl, rdy := rdy } := by
  unfold tickTcb
  simp only
  split
  · split
    · split
      · exact ⟨_, _, rfl⟩
      · exact ⟨_, _, rfl⟩
    · exact ⟨_, _, rfl⟩
  · exact ⟨_, _, rfl⟩

theorem tickActs_remote (i : ℕ) (ph : Phase) (p : ℕ) : ∀ a ∈ tickActs i ph, a.Remote p := by
  unfold tickActs
  split
  · exact nofun
  · split
    · exact List.forall_mem_singleton.mpr trivial
    · exact List.forall_mem_singleton.mpr trivial

/-! ### What calls do -/

namespace Call

/-- The steps of a call are remote, or it is one step of the current task. -/
theorem Acts.cases (hacts : c.Acts k A x as) (hrep : k.Rep A) (hc : c.Contract k)
    (hexec : Runs.exec Model.step A as = some A') :
    x.pend = none ∧ (∀ a ∈ as, a.Remote k.OSPrioCur) ∨
      k.OSIntNesting = 0 ∧ k.OSLockNesting = 0 ∧ x.sched = true ∧
        ∃ ch, as = [.change k.OSTCBCur ch] ∧
          (ch.apply (A.task k.OSTCBCur)).phase.stops = false ∧
          x.pend = (ch.apply (A.task k.OSTCBCur)).phase.event.map fun e => (A.kind e, e) := by
  cases c with
  | lock => exact hacts.elim
  | unlock => exact hacts.elim
  | timeSet ticks =>
      obtain ⟨rfl, hpend, _⟩ := hacts
      exact Or.inl ⟨hpend, nofun⟩
  | create prio => exact hacts.elim
  | del prio => exact hacts.elim
  | changePrio oldprio newprio =>
      obtain ⟨hpend, _, i, hi, _, rfl⟩ := hacts
      obtain ⟨⟨_, _, _, hfresh, _⟩, _⟩ := Model.exec_one_iff.mp hexec
      have hprio := hc.2.2.1 (hrep.prioTbl_null.mpr hfresh)
      exact Or.inl ⟨hpend, List.forall_mem_singleton.mpr hprio⟩
  | suspend prio =>
      obtain ⟨hpend, i, _, _, rfl, _⟩ := hacts
      exact Or.inl ⟨hpend, List.forall_mem_singleton.mpr trivial⟩
  | resume prio =>
      obtain ⟨hpend, i, _, _, rfl, _⟩ := hacts
      exact Or.inl ⟨hpend, List.forall_mem_singleton.mpr trivial⟩
  | dly ticks =>
      obtain ⟨hint, hlock, _, hpend, hsched, rfl⟩ := hacts
      exact Or.inr ⟨hint, hlock, hsched, _, rfl, rfl, hpend⟩
  | dlyResume prio =>
      obtain ⟨hpend, i, _, _, rfl, _⟩ := hacts
      exact Or.inl ⟨hpend, List.forall_mem_singleton.mpr trivial⟩
  | pend kd e timeout =>
      obtain ⟨rfl, hint, hlock, ⟨rfl, _, hpend, _⟩ | ⟨rfl, hpend, hsched⟩⟩ := hacts
      · exact Or.inl ⟨hpend, List.forall_mem_singleton.mpr trivial⟩
      · exact Or.inr ⟨hint, hlock, hsched, _, rfl, rfl, hpend⟩
  | post kd e pmsg =>
      obtain ⟨_, _, hpend, ⟨rfl, _⟩ | ⟨_, i, rfl⟩⟩ := hacts
      · exact Or.inl ⟨hpend, List.forall_mem_singleton.mpr trivial⟩
      · exact Or.inl ⟨hpend, List.forall_mem_singleton.mpr trivial⟩
  | accept kd e =>
      obtain ⟨_, _, hpend, _, pmsg, rfl, _⟩ := hacts
      exact Or.inl ⟨hpend, List.forall_mem_singleton.mpr trivial⟩
  | pendAbort kd e broadcast =>
      obtain ⟨_, hpend, _, l, rfl⟩ := hacts
      refine Or.inl ⟨hpend, fun a ha => ?_⟩
      obtain ⟨i, _, rfl⟩ := List.mem_map.mp ha
      trivial

/-- A call that does not lead to `OS_Sched` makes no task ready. -/
theorem Acts.fresh (hacts : c.Acts k A x as) (hrep : k.Rep A)
    (hexec : Runs.exec Model.step A as = some A') (hsched : x.sched = false)
    (hpend : k.pendSV = false)
    (h : k.Fresh A) : k.Fresh A' := by
  obtain ⟨hcur, hready, _⟩ := h.current hpend
  cases c with
  | lock => exact hacts.elim
  | unlock => exact hacts.elim
  | timeSet ticks =>
      obtain ⟨rfl, _⟩ := hacts
      cases hexec
      exact h
  | create prio => exact hacts.elim
  | del prio => exact hacts.elim
  | changePrio oldprio newprio => cases hsched.symm.trans hacts.2.1
  | suspend prio =>
      obtain ⟨_, i, hi, hprio, rfl, hne⟩ := hacts
      obtain ⟨_, rfl⟩ := Model.exec_one_iff.mp hexec
      have hic : i ≠ k.OSTCBCur := by
        rintro rfl
        exact hne hsched (hprio.symm.trans (hrep.task _ hcur).prio.symm)
      exact h.edit hpend hic fun hr => nomatch hr.1
  | resume prio =>
      obtain ⟨_, i, hi, _, rfl, hnot⟩ := hacts
      obtain ⟨⟨_, hsusp⟩, rfl⟩ := Model.exec_one_iff.mp hexec
      have hic : i ≠ k.OSTCBCur := by
        rintro rfl
        have hsusp : (A.task k.OSTCBCur).susp = true := hsusp
        cases hsusp.symm.trans hready.1
      exact h.edit hpend hic (hnot hsched)
  | dly ticks => cases hsched.symm.trans hacts.2.2.2.2.1
  | dlyResume prio =>
      obtain ⟨_, i, hi, _, rfl, hsusp⟩ := hacts
      obtain ⟨⟨_, hdly⟩, rfl⟩ := Model.exec_one_iff.mp hexec
      have hic : i ≠ k.OSTCBCur := by
        rintro rfl
        have hdly : (A.task k.OSTCBCur).phase.dly > 0 := hdly
        exact absurd hready.2.2.1 (Nat.ne_of_gt hdly)
      exact h.edit hpend hic fun hr => nomatch (hsusp hsched).symm.trans hr.1
  | pend kd e timeout =>
      obtain ⟨_, _, _, ⟨rfl, _⟩ | ⟨_, _, hs⟩⟩ := hacts
      · obtain ⟨_, rfl⟩ := Model.exec_one_iff.mp hexec
        exact h
      · cases hsched.symm.trans hs
  | post kd e pmsg =>
      obtain ⟨_, _, _, ⟨rfl, _⟩ | ⟨hs, _⟩⟩ := hacts
      · obtain ⟨_, rfl⟩ := Model.exec_one_iff.mp hexec
        exact h
      · cases hsched.symm.trans hs
  | accept kd e =>
      obtain ⟨_, _, _, _, pmsg, rfl, _⟩ := hacts
      obtain ⟨_, rfl⟩ := Model.exec_one_iff.mp hexec
      exact h
  | pendAbort kd e broadcast => cases hsched.symm.trans hacts.2.2.1

theorem Locks.rep (hlocks : c.Locks k x) (h : k.Rep A) : x.kern.Rep A ∧ x.kern.ctl = k.ctl := by
  cases c with
  | lock =>
      obtain ⟨_, rfl⟩ := hlocks
      exact ⟨h.congr rfl rfl rfl rfl rfl rfl rfl, rfl⟩
  | unlock =>
      obtain ⟨_, hx, _⟩ := hlocks
      rw [hx]
      exact ⟨h.congr rfl rfl rfl rfl rfl rfl rfl, rfl⟩
  | _ => exact hlocks.elim

theorem Effect.exec (heffect : c.Effect k A x as) (h : k.Rep A) :
    ∃ A', Runs.exec Model.step A as = some A' ∧ x.kern.Rep A' ∧ x.kern.ctl = k.ctl := by
  rcases heffect with ⟨rfl, ⟨hx, _⟩ | hlocks⟩ | ⟨hx, _⟩ | ⟨hx, _⟩
  · rw [hx]
    exact ⟨A, rfl, h, rfl⟩
  · exact ⟨A, rfl, hlocks.rep h⟩
  · obtain ⟨A', hexec, hrep⟩ := hx.rep
    exact ⟨A', hexec, hrep, hx.ctl⟩
  · obtain ⟨A', hexec, hrep⟩ := hx.rep
    exact ⟨A', hexec, hrep, hx.ctl⟩

end Call

/-! ### Creations and deletions in progress -/

namespace Machine

theorem exit_pc_self {pc : ℕ → Pc} :
    (m.exit pc x).pc m.kern.OSTCBCur = ⟨x.sched, x.pend, x.sec⟩ := Function.update_self ..

/-- Only the current task goes on. -/
theorem exit_pc {pc : ℕ → Pc} (hne : i ≠ m.kern.OSTCBCur) : (m.exit pc x).pc i = pc i :=
  Function.update_of_ne hne _ _

namespace Sections

variable (h : m.Sections A)
include h

theorem holds (hcur : m.kern.OSTCBCur ∈ A.list) {s : Section} (hs : m.at.sec = some s) :
    s.Holds A := by
  have hreserved : ∀ p, m.at.reserved = some p → p ∈ A.reserved := fun p hp =>
    (h.reserved _ hcur p hp).1
  have htaken : ∀ p, m.at.taken = some p → p ∈ A.taken := fun p hp => (h.taken _ hcur p hp).1
  unfold Pc.reserved at hreserved
  unfold Pc.taken at htaken
  rw [hs] at hreserved htaken
  cases s with
  | tcbInit prio => exact hreserved prio rfl
  | release prio => exact hreserved prio rfl
  | tcbLink prio ptcb => exact ⟨htaken ptcb rfl, hreserved prio rfl⟩
  | delete prio ptcb => exact (h.delete _ hcur prio ptcb hs).2.1

theorem congr {m' : Machine} (hpc : ∀ i, (m'.pc i).sec = (m.pc i).sec)
    (hpend : ∀ i, (m'.pc i).pend = (m.pc i).pend) (hcur : m'.kern.OSTCBCur = m.kern.OSTCBCur)
    (hlock : m'.kern.OSLockNesting = m.kern.OSLockNesting) : m'.Sections A where
  reserved := (funext fun i => Pc.reserved_eq (hpc i) :
    (fun i => (m'.pc i).reserved) = fun i => (m.pc i).reserved) ▸ h.reserved
  taken := (funext fun i => Pc.taken_eq (hpc i) :
    (fun i => (m'.pc i).taken) = fun i => (m.pc i).taken) ▸ h.taken
  pend i hi hs := (hpend i).trans (h.pend i hi (hpc i ▸ hs))
  delete i hi prio ptcb hs := by
    rw [hcur, hlock]
    exact h.delete i hi prio ptcb ((hpc i).symm.trans hs)
  stopped j hj hs := by
    obtain ⟨prio, hat, hl⟩ := h.stopped j hj hs
    refine ⟨prio, ?_, hlock ▸ hl⟩
    rw [Machine.at, hcur, hpc]
    exact hat
  gone hgone := by
    rw [Machine.at, hcur, hpc]
    exact h.gone (hcur ▸ hgone)

/-- Remote steps leave them alone, and the scheduler remains locked in a deletion. -/
theorem near {p : ℕ} (hnear : Model.Near p A A') {k : Kern}
    (hcur : k.OSTCBCur = m.kern.OSTCBCur)
    (hlock : ∀ prio ptcb, m.at.sec = some (.delete prio ptcb) →
      k.OSLockNesting = m.kern.OSLockNesting) {tick : Option (Option ℕ)} :
    Machine.Sections { m with kern := k, tick := tick } A' where
  reserved := by
    rw [hnear.list, hnear.reserved]
    exact h.reserved
  taken := by
    rw [hnear.list, hnear.taken]
    exact h.taken
  pend i hi := h.pend i (hnear.list ▸ hi)
  delete i hi prio ptcb hs := by
    obtain ⟨hic, ⟨⟨hmem, hstop⟩, hprio⟩, hl, hself⟩ := h.delete i (hnear.list ▸ hi) prio ptcb hs
    have hlock' : k.OSLockNesting = m.kern.OSLockNesting :=
      hlock prio ptcb (by rwa [Machine.at, ← hic])
    change i = k.OSTCBCur ∧ _ ∧ k.OSLockNesting > 0 ∧ (ptcb = k.OSTCBCur → k.OSLockNesting = 1)
    rw [hcur, hlock']
    exact ⟨hic, ⟨⟨hnear.list ▸ hmem, (hnear.stops ptcb).trans hstop⟩,
      (hnear.prio_stopped ptcb hstop).trans hprio⟩, hl, hself⟩
  stopped j hj hs := by
    obtain ⟨prio, hat, hl⟩ := h.stopped j (hnear.list ▸ hj) ((hnear.stops j).symm.trans hs)
    refine ⟨prio, ?_, ?_⟩
    · change (m.pc k.OSTCBCur).sec = _
      rw [hcur]
      exact hat
    · change k.OSLockNesting > 0
      rw [hlock prio j hat]
      exact hl
  gone hgone := by
    change k.OSTCBCur ∉ A'.list at hgone
    change (m.pc k.OSTCBCur).sec = none
    rw [hcur] at hgone ⊢
    exact h.gone (hnear.list ▸ hgone)

variable (hno : ∀ prio ptcb, m.at.sec ≠ some (.delete prio ptcb))
include hno

theorem not_delete (hi : i ∈ A.list) (prio ptcb : ℕ) :
    (m.pc i).sec ≠ some (.delete prio ptcb) := by
  intro hs
  obtain ⟨rfl, _⟩ := h.delete i hi prio ptcb hs
  exact hno prio ptcb hs

theorem not_stopped (hi : i ∈ A.list) : (A.task i).phase.stops = false := by
  refine Bool.eq_false_of_not_eq_true fun hs => ?_
  obtain ⟨prio, hat, _⟩ := h.stopped i hi hs
  exact hno prio i hat

/-- The rule for a critical section of the current task, without a deletion. -/
theorem exit {pc : ℕ → Pc} (hctl : x.kern.ctl = m.kern.ctl)
    (hcur : m.kern.OSTCBCur ∈ A'.list)
    (hsec : ∀ prio ptcb, x.sec ≠ some (.delete prio ptcb))
    (hpend : x.sec ≠ none → x.pend = none)
    (hpc : ∀ i ∈ A'.list, i ≠ m.kern.OSTCBCur → pc i = .run ∨ i ∈ A.list ∧ pc i = m.pc i)
    (hreserved : ∀ i ∈ A.list, i ≠ m.kern.OSTCBCur → ∀ p, (m.pc i).reserved = some p →
      p ∈ A'.reserved)
    (htaken : ∀ i ∈ A.list, i ≠ m.kern.OSTCBCur → ∀ p, (m.pc i).taken = some p → p ∈ A'.taken)
    (hcurReserved : ∀ p, Pc.reserved ⟨x.sched, x.pend, x.sec⟩ = some p → p ∈ A'.reserved ∧
      (m.kern.OSTCBCur ∈ A.list ∧ m.at.reserved = some p ∨ p ∉ A.reserved))
    (hcurTaken : ∀ p, Pc.taken ⟨x.sched, x.pend, x.sec⟩ = some p → p ∈ A'.taken ∧
      (m.kern.OSTCBCur ∈ A.list ∧ m.at.taken = some p ∨ p ∉ A.taken))
    (hstop : ∀ i ∈ A'.list, (A'.task i).phase.stops = false) :
    (m.exit pc x).Sections A' where
  reserved := by
    refine h.reserved.step m.kern.OSTCBCur fun i hi p hp => ?_
    by_cases hic : i = m.kern.OSTCBCur
    · subst hic
      rw [exit_pc_self] at hp
      exact (hcurReserved p hp).imp_right (Or.imp_right fun hn => ⟨rfl, hn⟩)
    · rw [exit_pc hic] at hp
      rcases hpc i hi hic with hrun | ⟨hil, hsame⟩
      · rw [hrun] at hp
        cases hp
      · rw [hsame] at hp
        exact ⟨hreserved i hil hic p hp, Or.inl ⟨hil, hp⟩⟩
  taken := by
    refine h.taken.step m.kern.OSTCBCur fun i hi p hp => ?_
    by_cases hic : i = m.kern.OSTCBCur
    · subst hic
      rw [exit_pc_self] at hp
      exact (hcurTaken p hp).imp_right (Or.imp_right fun hn => ⟨rfl, hn⟩)
    · rw [exit_pc hic] at hp
      rcases hpc i hi hic with hrun | ⟨hil, hsame⟩
      · rw [hrun] at hp
        cases hp
      · rw [hsame] at hp
        exact ⟨htaken i hil hic p hp, Or.inl ⟨hil, hp⟩⟩
  pend i hi hs := by
    by_cases hic : i = m.kern.OSTCBCur
    · subst hic
      rw [exit_pc_self] at hs ⊢
      exact hpend hs
    · rw [exit_pc hic] at hs ⊢
      rcases hpc i hi hic with hrun | ⟨hil, hsame⟩
      · rw [hrun]
        rfl
      · rw [hsame] at hs ⊢
        exact h.pend i hil hs
  delete i hi prio ptcb hs := by
    by_cases hic : i = m.kern.OSTCBCur
    · subst hic
      rw [exit_pc_self] at hs
      exact absurd hs (hsec prio ptcb)
    · rw [exit_pc hic] at hs
      rcases hpc i hi hic with hrun | ⟨hil, hsame⟩
      · rw [hrun] at hs
        cases hs
      · rw [hsame] at hs
        exact absurd hs (h.not_delete hno hil prio ptcb)
  stopped j hj hs := by cases (hstop j hj).symm.trans hs
  gone hgone := by
    change x.kern.OSTCBCur ∉ A'.list at hgone
    rw [show x.kern.OSTCBCur = m.kern.OSTCBCur from congrArg Ctl.OSTCBCur hctl] at hgone
    exact absurd hcur hgone

/-- The rule for one after which the current task is in no creation or deletion. -/
theorem returns {pc : ℕ → Pc} (hctl : x.kern.ctl = m.kern.ctl)
    (hcur : m.kern.OSTCBCur ∈ A'.list) (hsec : x.sec = none)
    (hpc : ∀ i ∈ A'.list, i ≠ m.kern.OSTCBCur → pc i = .run ∨ i ∈ A.list ∧ pc i = m.pc i)
    (hreserved : ∀ i ∈ A.list, i ≠ m.kern.OSTCBCur → ∀ p, (m.pc i).reserved = some p →
      p ∈ A'.reserved)
    (htaken : ∀ i ∈ A.list, i ≠ m.kern.OSTCBCur → ∀ p, (m.pc i).taken = some p → p ∈ A'.taken)
    (hstop : ∀ i ∈ A'.list, (A'.task i).phase.stops = false) : (m.exit pc x).Sections A' := by
  refine h.exit hno hctl hcur (fun _ _ hs => by cases hsec.symm.trans hs)
    (fun hs => absurd hsec hs) hpc hreserved htaken (fun p hp => ?_) (fun p hp => ?_) hstop
  · rw [Pc.reserved_none hsec] at hp
    cases hp
  · rw [Pc.taken_none hsec] at hp
    cases hp

end Sections

/-! ### Critical sections of the current task -/

theorem sec_ne_delete (hat : m.at = .run) (prio ptcb : ℕ) :
    m.at.sec ≠ some (.delete prio ptcb) := by
  rw [hat]
  exact nofun

theorem next_call (hx : c.exec m.kern = some x) : m.next (.call c) = some (m.exit m.pc x) := by
  unfold next
  simp only [hx]
  rfl

theorem next_proceed {s : Section} (hs : m.at.sec = some s) (hx : s.exec m.kern = some x) :
    m.next .proceed = some (m.exit (m.entry s) x) := by
  unfold next
  rw [hs]
  change (do
    let x ← s.exec m.kern
    some (m.exit (m.entry s) x)) = _
  rw [hx]
  rfl

namespace Inv

section

variable (h : m.Inv A) (hlevel : m.TaskLevel)
  (hexec : exec Model.step A as = some A') (hrep : x.kern.Rep A')
  (hctl : x.kern.ctl = m.kern.ctl) {pc : ℕ → Pc}
include h hlevel hexec hrep hctl

/-- The rule for what the current task does. -/
theorem of_exit (hpc : ∀ i ∈ A'.list, ((m.exit pc x).pc i).pend =
      (A'.task i).phase.event.map fun e => (A'.kind e, e))
    (hsec : (m.exit pc x).Sections A')
    (hcur : x.sched = false ∨ x.kern.OSLockNesting > 0 → m.kern.OSTCBCur ∈ A'.list)
    (hsync : ∀ i ∈ A'.list, (A'.task i).prio = m.kern.OSPrioCur → i = m.kern.OSTCBCur)
    (hprioCur : m.kern.OSPrioCur ∉ A'.reserved)
    (hfresh : x.sched = false → x.kern.OSLockNesting = 0 → m.kern.Fresh A')
    (hlocked : x.kern.OSLockNesting > 0 → (A'.task m.kern.OSTCBCur).phase = .run 0 ∨
      (A'.task m.kern.OSTCBCur).phase.stops = true) : (m.exit pc x).Inv A' := by
  obtain ⟨hok, hidle, hserved⟩ := h.rep.ok.exec h.idle h.served hexec
  have hcur' : x.kern.OSTCBCur = m.kern.OSTCBCur := congrArg Ctl.OSTCBCur hctl
  have hcurPrio : x.kern.OSPrioCur = m.kern.OSPrioCur := congrArg Ctl.OSPrioCur hctl
  have hpendSV : x.kern.pendSV = false := (congrArg Ctl.pendSV hctl).trans hlevel.2
  have hat : (m.exit pc x).at = ⟨x.sched, x.pend, x.sec⟩ := by
    change (m.exit pc x).pc x.kern.OSTCBCur = _
    rw [hcur', exit_pc_self]
  refine {
    rep := hrep
    idle := hidle
    served := hserved
    run := (congrArg Ctl.OSRunning hctl).trans h.run
    pc := hpc
    sections := hsec
    cur := fun hl => ?_
    sync := fun i hi hprio => (hsync i hi (hprio.trans hcurPrio)).trans hcur'.symm
    prioCur := ?_
    fresh := fun _ hlock hs => ?_
    locked := fun hlock => ⟨hpendSV, ?_⟩
    tick := fun c hc => ?_ }
  · rw [hat] at hl
    change x.kern.OSTCBCur ∈ A'.list
    rw [hcur']
    exact hcur (hl.imp_left And.left)
  · change x.kern.OSPrioCur ∉ A'.reserved
    rw [hcurPrio]
    exact hprioCur
  · rw [hat] at hs
    refine (hfresh (hs.resolve_left fun hp => ?_) hlock).congr hctl
    cases hpendSV.symm.trans hp
  · change (A'.task x.kern.OSTCBCur).phase = _ ∨ (A'.task x.kern.OSTCBCur).phase.stops = _
    rw [hcur']
    exact hlocked hlock
  · have htick : m.tick = some c := hc
    rw [h.tick_none hlevel.1] at htick
    cases htick

/-- The rule for a critical section that leaves the tasks alone. -/
theorem of_same (hsched : m.at.sched = false) (hpend : m.at.pend = none)
    (hno : ∀ prio ptcb, m.at.sec ≠ some (.delete prio ptcb)) (hlist : A'.list = A.list)
    (htask : A'.task = A.task) (hkind : A'.kind = A.kind)
    (hlock : x.kern.OSLockNesting = m.kern.OSLockNesting) (hpend' : x.pend = none)
    (hsec : (m.exit m.pc x).Sections A') (hprioCur : m.kern.OSPrioCur ∉ A'.reserved) :
    (m.exit m.pc x).Inv A' := by
  obtain ⟨hcur, hph⟩ := h.running hlevel hsched hpend fun prio => hno prio _
  refine h.of_exit hlevel hexec hrep hctl ?_ hsec (fun _ => hlist ▸ hcur) ?_ hprioCur ?_
    fun _ => Or.inl (htask ▸ hph)
  · intro i hi
    rw [hkind, htask]
    by_cases hic : i = m.kern.OSTCBCur
    · subst hic
      rw [exit_pc_self, hph]
      exact hpend'
    · rw [exit_pc hic]
      exact h.pc i (hlist ▸ hi)
  · intro i hi
    rw [htask]
    exact h.sync i (hlist ▸ hi)
  · intro _ hl
    exact (h.fresh hlevel.1 (hlock.symm.trans hl) (Or.inr hsched)).of_task hlist htask

end

section

variable (h : m.Inv A) (hlevel : m.TaskLevel) (hat : m.at = .run)
  (hexec : exec Model.step A as = some A') (hrep : x.kern.Rep A')
  (hctl : x.kern.ctl = m.kern.ctl)
include h hlevel hat hrep hctl

/-- A call whose steps are remote, or that has no step. -/
theorem call_remote (hexec : exec Model.step A as = some A')
    (has : ∀ a ∈ as, a.Remote m.kern.OSPrioCur) (hpend : x.pend = none) (hsec : x.sec = none)
    (hfresh : x.sched = false → x.kern.OSLockNesting = 0 → m.kern.Fresh A') :
    (m.exit m.pc x).Inv A' := by
  obtain ⟨hcur, hph⟩ := h.running_run hlevel hat
  have hno := sec_ne_delete hat
  have hnear := Model.Near.exec has hexec
  refine h.of_exit hlevel hexec hrep hctl ?_ ?_ (fun _ => hnear.list ▸ hcur) ?_
    (hnear.reserved ▸ h.prioCur) hfresh fun _ => Or.inl (hnear.run _ hph)
  · intro i hi
    rw [hnear.list] at hi
    rw [hnear.kind, hnear.event]
    by_cases hic : i = m.kern.OSTCBCur
    · subst hic
      rw [exit_pc_self, hph]
      exact hpend
    · rw [exit_pc hic]
      exact h.pc i hi
  · refine h.sections.returns hno hctl (hnear.list ▸ hcur) hsec
      (fun i hi _ => Or.inr ⟨hnear.list ▸ hi, rfl⟩) (fun i hi _ p hp => ?_)
      (fun i hi _ p hp => ?_) fun i hi => ?_
    · rw [hnear.reserved]
      exact (h.sections.reserved i hi p hp).1
    · rw [hnear.taken]
      exact (h.sections.taken i hi p hp).1
    · rw [hnear.stops]
      exact h.sections.not_stopped hno (hnear.list ▸ hi)
  · intro i hi hi'
    rw [hnear.list] at hi
    exact h.sync i hi (hnear.prio i hi')

theorem call_self {ch : Change}
    (hexec : exec Model.step A [.change m.kern.OSTCBCur ch] = some A')
    (hstop : (ch.apply (A.task m.kern.OSTCBCur)).phase.stops = false)
    (hpend : x.pend = (ch.apply (A.task m.kern.OSTCBCur)).phase.event.map fun e => (A.kind e, e))
    (hsec : x.sec = none) (hsched : x.sched = true) (hlock : x.kern.OSLockNesting = 0) :
    (m.exit m.pc x).Inv A' := by
  obtain ⟨hcur, _⟩ := h.running_run hlevel hat
  have hno := sec_ne_delete hat
  obtain ⟨-, rfl⟩ := Model.exec_one_iff.mp hexec
  have hself : (A.after (.change m.kern.OSTCBCur ch)).task m.kern.OSTCBCur =
      ch.apply (A.task m.kern.OSTCBCur) := Model.edit_task_self
  have hother : ∀ i ≠ m.kern.OSTCBCur,
      (A.after (.change m.kern.OSTCBCur ch)).task i = A.task i := fun i hi =>
    Model.edit_task_of_ne hi
  refine h.of_exit hlevel hexec hrep hctl ?_ ?_ (fun _ => hcur) ?_ h.prioCur
    (fun hs => by cases hs.symm.trans hsched) fun hl => absurd hlock (Nat.ne_of_gt hl)
  · intro i hi
    by_cases hic : i = m.kern.OSTCBCur
    · subst hic
      rw [exit_pc_self, hself]
      exact hpend
    · rw [exit_pc hic, hother i hic]
      exact h.pc i hi
  · refine h.sections.returns hno hctl hcur hsec (fun i hi _ => Or.inr ⟨hi, rfl⟩)
      (fun i hi _ p hp => (h.sections.reserved i hi p hp).1)
      (fun i hi _ p hp => (h.sections.taken i hi p hp).1) fun i hi => ?_
    by_cases hic : i = m.kern.OSTCBCur
    · rw [hic, hself]
      exact hstop
    · rw [hother i hic]
      exact h.sections.not_stopped hno hi
  · intro i hi hi'
    by_cases hic : i = m.kern.OSTCBCur
    · exact hic
    · rw [hother i hic] at hi'
      exact h.sync i hi hi'

theorem call_reserve {prio : ℕ} (hexec : exec Model.step A [.reserve prio] = some A')
    (hprio : prio ≠ m.kern.OSPrioCur) (hx : x = x.kern.goOn (.tcbInit prio))
    (hlock : x.kern.OSLockNesting = m.kern.OSLockNesting) : (m.exit m.pc x).Inv A' := by
  obtain ⟨hcur, _⟩ := h.running_run hlevel hat
  have hno := sec_ne_delete hat
  obtain ⟨hpend, hsec⟩ := Exit.of_goOn hx
  obtain ⟨⟨_, _, hnew⟩, rfl⟩ := Model.exec_one_iff.mp hexec
  have hmono : ∀ p ∈ A.reserved, p ∈ (A.after (.reserve prio)).reserved := fun p hp =>
    List.mem_cons_of_mem prio hp
  refine h.of_same hlevel hexec hrep hctl (by rw [hat]; rfl) (by rw [hat]; rfl) hno rfl rfl rfl
    hlock hpend ?_ fun hmem => ?_
  · refine h.sections.exit hno hctl hcur (fun p t hs => by cases hsec.symm.trans hs)
      (fun _ => hpend) (fun i hi _ => Or.inr ⟨hi, rfl⟩)
      (fun i hi _ p hp => hmono p (h.sections.reserved i hi p hp).1)
      (fun i hi _ p hp => (h.sections.taken i hi p hp).1) (fun p hp => ?_) (fun p hp => ?_)
      fun i hi => h.sections.not_stopped hno hi
    · rw [hsec] at hp
      obtain rfl := Option.some.inj hp
      exact ⟨List.mem_cons_self, Or.inr hnew⟩
    · rw [hsec] at hp
      cases hp
  · rcases List.mem_cons.mp hmem with he | hmem
    · exact hprio he.symm
    · exact h.prioCur hmem

theorem call_stop {prio : ℕ} (hexec : exec Model.step A [.change i .stop] = some A')
    (hi : (A.task i).prio = prio) (hx : x = x.kern.goOn (.delete prio i))
    (hlock : x.kern.OSLockNesting > 0)
    (hself : i = m.kern.OSTCBCur → x.kern.OSLockNesting = 1) : (m.exit m.pc x).Inv A' := by
  obtain ⟨hcur, hph⟩ := h.running_run hlevel hat
  have hno := sec_ne_delete hat
  obtain ⟨hpend, hsec⟩ := Exit.of_goOn hx
  obtain ⟨⟨hmem, _⟩, rfl⟩ := Model.exec_one_iff.mp hexec
  have htask : (A.after (.change i .stop)).task i = Change.stop.apply (A.task i) :=
    Model.edit_task_self
  have hother : ∀ j ≠ i, (A.after (.change i .stop)).task j = A.task j := fun j hj =>
    Model.edit_task_of_ne hj
  have hprio : ∀ j, ((A.after (.change i .stop)).task j).prio = (A.task j).prio := by
    intro j
    by_cases hj : j = i
    · rw [hj, htask]
      rfl
    · rw [hother j hj]
  have hevent : ∀ j, ((A.after (.change i .stop)).task j).phase.event = (A.task j).phase.event := by
    intro j
    by_cases hj : j = i
    · rw [hj, htask]
      rfl
    · rw [hother j hj]
  have hkern : (m.exit m.pc x).kern.OSTCBCur = m.kern.OSTCBCur := congrArg Ctl.OSTCBCur hctl
  refine h.of_exit hlevel hexec hrep hctl ?_ ?_ (fun _ => hcur)
    (fun j hj hj' => h.sync j hj ((hprio j).symm.trans hj')) h.prioCur
    (fun _ hl => absurd hl (Nat.ne_of_gt hlock)) fun _ => ?_
  · intro j hj
    rw [hevent]
    by_cases hjc : j = m.kern.OSTCBCur
    · subst hjc
      rw [exit_pc_self, hph]
      exact hpend
    · rw [exit_pc hjc]
      exact h.pc j hj
  · refine ⟨h.sections.reserved.step 0 fun j hj p hp => ?_,
      h.sections.taken.step 0 fun j hj p hp => ?_, fun j hj hs => ?_, fun j hj p t hs => ?_,
      fun j hj hs => ?_, fun hgone => absurd (hkern ▸ hcur) hgone⟩
    · by_cases hjc : j = m.kern.OSTCBCur
      · subst hjc
        rw [exit_pc_self, hsec] at hp
        cases hp
      · rw [exit_pc hjc] at hp
        exact ⟨(h.sections.reserved j hj p hp).1, Or.inl ⟨hj, hp⟩⟩
    · by_cases hjc : j = m.kern.OSTCBCur
      · subst hjc
        rw [exit_pc_self, hsec] at hp
        cases hp
      · rw [exit_pc hjc] at hp
        exact ⟨(h.sections.taken j hj p hp).1, Or.inl ⟨hj, hp⟩⟩
    · by_cases hjc : j = m.kern.OSTCBCur
      · subst hjc
        rw [exit_pc_self]
        exact hpend
      · rw [exit_pc hjc] at hs ⊢
        exact h.sections.pend j hj hs
    · by_cases hjc : j = m.kern.OSTCBCur
      · subst hjc
        rw [exit_pc_self, hsec] at hs
        obtain ⟨rfl, rfl⟩ := Section.delete.inj (Option.some.inj hs)
        rw [hkern]
        exact ⟨rfl, ⟨⟨hmem, by rw [htask]; rfl⟩, (hprio i).trans hi⟩, hlock, hself⟩
      · rw [exit_pc hjc] at hs
        exact absurd hs (h.sections.not_delete hno hj p t)
    · have hji : j = i := by
        by_contra hne
        rw [hother j hne, h.sections.not_stopped hno hj] at hs
        cases hs
      refine ⟨prio, ?_, hlock⟩
      change ((m.exit m.pc x).pc (m.exit m.pc x).kern.OSTCBCur).sec = _
      rw [hkern, exit_pc_self, hsec, hji]
  · by_cases hic : m.kern.OSTCBCur = i
    · rw [hic, htask]
      exact Or.inr rfl
    · rw [hother _ hic]
      exact Or.inl hph

end

theorem call (h : m.Inv A) (hlevel : m.TaskLevel) (hat : m.at = .run)
    (hprio : m.kern.cur.OSTCBPrio ≠ OS_TASK_IDLE_PRIO) (hc : c.Contract m.kern) :
    ∃ x as A', c.exec m.kern = some x ∧ c.Effect m.kern A x as ∧
      exec Model.step A as = some A' ∧ (m.exit m.pc x).Inv A' := by
  obtain ⟨hcur, hph⟩ := h.running_run hlevel hat
  have hno := sec_ne_delete hat
  have hidle : (A.task m.kern.OSTCBCur).prio ≠ OS_TASK_IDLE_PRIO := by
    rw [← (h.rep.task _ hcur).prio]
    exact hprio
  obtain ⟨x, hx, as, heffect⟩ :=
    exec_result h.rep h.run hc (fun _ _ => ⟨hcur, hidle, hph⟩) fun i hi hs => by
      cases (h.sections.not_stopped hno hi).symm.trans hs
  obtain ⟨A', hexec, hrep, hctl⟩ := heffect.exec h.rep
  refine ⟨x, as, A', hx, heffect, hexec, ?_⟩
  have hfresh : m.kern.OSLockNesting = 0 → m.kern.Fresh A := fun hlock =>
    h.fresh hlevel.1 hlock (Or.inr (by rw [hat]; rfl))
  rcases heffect with ⟨rfl, hnone⟩ | ⟨hdoes, hacts⟩ | ⟨_, hbegins⟩
  · -- the call failed, or locks or unlocks the scheduler
    have hA' : A = A' := Option.some.inj hexec
    obtain ⟨hpend, hsec⟩ : x.pend = none ∧ x.sec = none := by
      rcases hnone with ⟨hx, _⟩ | hlocks
      · rw [hx]
        exact ⟨rfl, rfl⟩
      · cases c with
        | lock =>
            rw [hlocks.2]
            exact ⟨rfl, rfl⟩
        | unlock => exact ⟨hlocks.2.2.1, hlocks.2.2.2.1⟩
        | _ => exact hlocks.elim
    refine h.call_remote hlevel hat hrep hctl hexec nofun hpend hsec fun hsched hlock => ?_
    rw [← hA']
    rcases hnone with ⟨hx, _⟩ | hlocks
    · rw [hx] at hlock
      exact hfresh hlock
    · cases c with
      | lock =>
          rw [hlocks.2] at hlock
          exact absurd hlock (Nat.succ_ne_zero _)
      | unlock =>
          rcases hlocks.2.2.2.2 hsched with hpos | hint
          · rw [hlocks.2.1] at hlock
            exact absurd hlock (Nat.ne_of_gt hpos)
          · exact absurd hlevel.1 (Nat.ne_of_gt hint)
      | _ => exact hlocks.elim
  · rcases hacts.cases h.rep hc hexec with
      ⟨hpend, hremote⟩ | ⟨_, hlock, hsched, ch, rfl, hstop, hpend⟩
    · exact h.call_remote hlevel hat hrep hctl hexec hremote hpend hdoes.sec fun hsched hlock =>
        hacts.fresh h.rep hexec hsched hlevel.2 (hfresh (hdoes.lock.symm.trans hlock))
    · exact h.call_self hlevel hat hrep hctl hexec hstop hpend hdoes.sec hsched
        (hdoes.lock.trans hlock)
  · cases c with
    | create prio =>
        obtain ⟨_, hlock, hgo, rfl⟩ := hbegins
        obtain ⟨⟨_, hnew⟩, _⟩ := Model.exec_one_iff.mp hexec
        exact h.call_reserve hlevel hat hrep hctl hexec (hc.2 (h.rep.prioTbl_null.mpr hnew)) hgo
          hlock
    | del prio =>
        obtain ⟨_, hlock, i, hi, hprio, hgo, rfl⟩ := hbegins
        refine h.call_stop hlevel hat hrep hctl hexec hprio hgo ?_ ?_
        · rw [hlock]
          split <;> omega
        · rintro rfl
          rw [hlock, hc.2 (hprio ▸ h.rep.prioTbl_of hi)]
          rfl
    | _ => exact hbegins.elim

/-! ### Further sections of creations and deletions -/

section

variable (h : m.Inv A) (hlevel : m.TaskLevel) (hsched : m.at.sched = false)
  (hrep : x.kern.Rep A') (hctl : x.kern.ctl = m.kern.ctl)
include h hlevel hsched hrep hctl

theorem section_alloc {prio : ℕ} (hexec : exec Model.step A as = some A')
    (hat : m.at.sec = some (.tcbInit prio)) (hacts : (Section.tcbInit prio).Acts m.kern A x as) :
    (m.exit m.pc x).Inv A' := by
  have hcur := h.cur (Or.inl ⟨hsched, hlevel.2⟩)
  have hpend := h.at_pend hcur hat
  have hno : ∀ prio ptcb, m.at.sec ≠ some (.delete prio ptcb) := by
    rw [hat]
    exact nofun
  have hold : m.at.reserved = some prio := by
    rw [Pc.reserved, hat]
  have hprio := (h.sections.reserved _ hcur prio hold).1
  obtain ⟨hlock, ⟨_, rfl, hx⟩ | ⟨i, rfl, hx⟩⟩ := hacts
  · obtain rfl : A = A' := Option.some.inj hexec
    obtain ⟨hpend', hsec⟩ := Exit.of_goOn hx
    refine h.of_same hlevel hexec hrep hctl hsched hpend hno rfl rfl rfl hlock hpend' ?_ h.prioCur
    refine h.sections.exit hno hctl hcur (fun p t hs => by cases hsec.symm.trans hs)
      (fun _ => hpend') (fun i hi _ => Or.inr ⟨hi, rfl⟩)
      (fun i hi _ p hp => (h.sections.reserved i hi p hp).1)
      (fun i hi _ p hp => (h.sections.taken i hi p hp).1) (fun p hp => ?_) (fun p hp => ?_)
      fun i hi => h.sections.not_stopped hno hi
    · rw [hsec] at hp
      obtain rfl := Option.some.inj hp
      exact ⟨hprio, Or.inl ⟨hcur, hold⟩⟩
    · rw [hsec] at hp
      cases hp
  · obtain ⟨ha, rfl⟩ := Model.exec_one_iff.mp hexec
    obtain ⟨hpend', hsec⟩ := Exit.of_goOn hx
    have hnew : i ∉ A.taken := fun ht =>
      h.rep.ok.not_mem_free_of_taken ht (List.mem_of_mem_head? ha)
    refine h.of_same hlevel hexec hrep hctl hsched hpend hno rfl rfl rfl hlock hpend' ?_ h.prioCur
    refine h.sections.exit hno hctl hcur (fun p t hs => by cases hsec.symm.trans hs)
      (fun _ => hpend') (fun j hj _ => Or.inr ⟨hj, rfl⟩)
      (fun j hj _ p hp => (h.sections.reserved j hj p hp).1)
      (fun j hj _ p hp => List.mem_cons_of_mem i (h.sections.taken j hj p hp).1) (fun p hp => ?_)
      (fun p hp => ?_) fun j hj => h.sections.not_stopped hno hj
    · rw [hsec] at hp
      obtain rfl := Option.some.inj hp
      exact ⟨hprio, Or.inl ⟨hcur, hold⟩⟩
    · rw [hsec] at hp
      obtain rfl := Option.some.inj hp
      exact ⟨List.mem_cons_self, Or.inr hnew⟩

theorem section_release {prio : ℕ} (hexec : exec Model.step A as = some A')
    (hat : m.at.sec = some (.release prio)) (hacts : (Section.release prio).Acts m.kern A x as) :
    (m.exit m.pc x).Inv A' := by
  have hcur := h.cur (Or.inl ⟨hsched, hlevel.2⟩)
  have hpend := h.at_pend hcur hat
  have hno : ∀ prio ptcb, m.at.sec ≠ some (.delete prio ptcb) := by
    rw [hat]
    exact nofun
  have hold : m.at.reserved = some prio := by
    rw [Pc.reserved, hat]
  obtain ⟨hlock, _, hpend', hsec, _, rfl⟩ := hacts
  obtain ⟨_, rfl⟩ := Model.exec_one_iff.mp hexec
  refine h.of_same hlevel hexec hrep hctl hsched hpend hno rfl rfl rfl hlock hpend' ?_ fun hmem =>
    h.prioCur (Model.mem_unreserve.mp hmem).1
  refine h.sections.returns hno hctl hcur hsec (fun i hi _ => Or.inr ⟨hi, rfl⟩)
    (fun i hi hic p hp => ?_)
    (fun i hi _ p hp => (h.sections.taken i hi p hp).1) fun i hi => h.sections.not_stopped hno hi
  obtain ⟨hmem, hone⟩ := h.sections.reserved i hi p hp
  refine Model.mem_unreserve.mpr ⟨hmem, ?_⟩
  rintro rfl
  exact hic (hone _ hcur hold).symm

theorem section_link {prio ptcb : ℕ} (hexec : exec Model.step A as = some A')
    (hat : m.at.sec = some (.tcbLink prio ptcb))
    (hacts : (Section.tcbLink prio ptcb).Acts m.kern A x as) :
    (m.exit (m.entry (.tcbLink prio ptcb)) x).Inv A' := by
  have hcur := h.cur (Or.inl ⟨hsched, hlevel.2⟩)
  have hpend := h.at_pend hcur hat
  have hno : ∀ prio ptcb, m.at.sec ≠ some (.delete prio ptcb) := by
    rw [hat]
    exact nofun
  obtain ⟨_, hph⟩ := h.running hlevel hsched hpend fun prio => hno prio _
  have hreserved : m.at.reserved = some prio := by
    rw [Pc.reserved, hat]
  have htaken : m.at.taken = some ptcb := by
    rw [Pc.taken, hat]
  obtain ⟨_, _, hpend', hsec, hsched', rfl⟩ := hacts
  obtain ⟨ha, rfl⟩ := Model.exec_one_iff.mp hexec
  have hi := h.rep.ok.mem_create ha
  have hcurNe : m.kern.OSTCBCur ≠ ptcb := fun he => hi (he ▸ hcur)
  have hself : (A.after (.create ptcb prio)).task ptcb = ⟨prio, false, .run 0⟩ :=
    Model.create_task_self
  have hother : ∀ j ∈ A.list, (A.after (.create ptcb prio)).task j = A.task j := fun j hj =>
    Model.create_task_of_mem hi hj
  -- it starts with its own code
  have hentry : m.entry (.tcbLink prio ptcb) ptcb = .run := Function.update_self ..
  have hpc : ∀ j ∈ A.list, m.entry (.tcbLink prio ptcb) j = m.pc j := fun j hj =>
    Function.update_of_ne (fun he : j = ptcb => hi (he ▸ hj)) _ _
  refine h.of_exit hlevel hexec hrep hctl ?_ ?_ (fun _ => List.mem_cons_of_mem ptcb hcur) ?_
    (fun hmem => h.prioCur (Model.mem_unreserve.mp hmem).1)
    (fun hs => by cases hs.symm.trans hsched') fun _ => Or.inl (by rw [hother _ hcur, hph])
  · intro j hj
    rcases List.mem_cons.mp hj with rfl | hj
    · rw [hself, exit_pc hcurNe.symm, hentry]
      rfl
    · rw [hother j hj]
      by_cases hjc : j = m.kern.OSTCBCur
      · subst hjc
        rw [exit_pc_self, hph]
        exact hpend'
      · rw [exit_pc hjc, hpc j hj]
        exact h.pc j hj
  · refine h.sections.returns hno hctl (List.mem_cons_of_mem ptcb hcur) hsec (fun j hj _ => ?_)
      (fun j hj hjc p hp => ?_)
      (fun j hj hjc p hp => ?_) fun j hj => ?_
    · rcases List.mem_cons.mp hj with rfl | hj
      · exact Or.inl hentry
      · exact Or.inr ⟨hj, hpc j hj⟩
    · obtain ⟨hmem, hone⟩ := h.sections.reserved j hj p hp
      refine Model.mem_unreserve.mpr ⟨hmem, ?_⟩
      rintro rfl
      exact hjc (hone _ hcur hreserved).symm
    · obtain ⟨hmem, hone⟩ := h.sections.taken j hj p hp
      refine (List.mem_erase_of_ne ?_).mpr hmem
      rintro rfl
      exact hjc (hone _ hcur htaken).symm
    · rcases List.mem_cons.mp hj with rfl | hj
      · rw [hself]
        rfl
      · rw [hother j hj]
        exact h.sections.not_stopped hno hj
  · intro j hj hj'
    rcases List.mem_cons.mp hj with rfl | hj
    · rw [hself] at hj'
      exact absurd (hj' ▸ ha.2) h.prioCur
    · rw [hother j hj] at hj'
      exact h.sync j hj hj'

theorem section_delete {prio ptcb : ℕ} (hexec : exec Model.step A as = some A')
    (hat : m.at.sec = some (.delete prio ptcb))
    (hacts : (Section.delete prio ptcb).Acts m.kern A x as) : (m.exit m.pc x).Inv A' := by
  have hcur := h.cur (Or.inl ⟨hsched, hlevel.2⟩)
  obtain ⟨-, -, hl, hself⟩ := h.sections.delete _ hcur prio ptcb hat
  obtain ⟨hlock, _, hpend, hsec, hsched', rfl⟩ := hacts
  obtain ⟨_, rfl⟩ := Model.exec_one_iff.mp hexec
  have hsub : ∀ j ∈ (A.after (.delete ptcb)).list, j ∈ A.list := fun j hj =>
    List.mem_of_mem_erase hj
  have hne : ∀ j ∈ (A.after (.delete ptcb)).list, j ≠ ptcb := fun j hj =>
    (h.rep.ok.nodup_list.mem_erase_iff.mp hj).1
  -- no other task is being deleted
  have hstop : ∀ j ∈ A.list, (A.task j).phase.stops = true → j = ptcb := by
    intro j hj hs
    obtain ⟨p, hat', _⟩ := h.sections.stopped j hj hs
    exact (Section.delete.inj (Option.some.inj (hat'.symm.trans hat))).2
  have hph : m.kern.OSTCBCur ≠ ptcb → (A.task m.kern.OSTCBCur).phase = .run 0 := fun hc =>
    (h.locked hl).2.resolve_right fun hs => hc (hstop _ hcur hs)
  have hcurNe : x.kern.OSLockNesting > 0 → m.kern.OSTCBCur ≠ ptcb := by
    intro hl' he
    have hone := hself he.symm
    omega
  have hpcNone : ∀ j ∈ (A.after (.delete ptcb)).list, ∀ p t,
      ((m.exit m.pc x).pc j).sec ≠ some (.delete p t) := by
    intro j hj p t hs
    by_cases hjc : j = m.kern.OSTCBCur
    · subst hjc
      rw [exit_pc_self, hsec] at hs
      cases hs
    · rw [exit_pc hjc] at hs
      exact hjc (h.sections.delete j (hsub j hj) p t hs).1
  refine h.of_exit hlevel hexec hrep hctl ?_ ?_ ?_ (fun j hj => h.sync j (hsub j hj)) h.prioCur
    (fun hs => by cases hs.symm.trans hsched') fun hl' => Or.inl (hph (hcurNe hl'))
  · intro j hj
    change _ = (A.task j).phase.event.map _
    by_cases hjc : j = m.kern.OSTCBCur
    · subst hjc
      rw [exit_pc_self, hph (hne _ hj)]
      exact hpend
    · rw [exit_pc hjc]
      exact h.pc j (hsub j hj)
  · refine ⟨h.sections.reserved.step 0 fun j hj p hp => ?_,
      h.sections.taken.step 0 fun j hj p hp => ?_, fun j hj hs => ?_,
      fun j hj p t hs => absurd hs (hpcNone j hj p t), fun j hj hs => ?_, fun _ => ?_⟩
    · by_cases hjc : j = m.kern.OSTCBCur
      · subst hjc
        rw [exit_pc_self, Pc.reserved_none hsec] at hp
        cases hp
      · rw [exit_pc hjc] at hp
        exact ⟨(h.sections.reserved j (hsub j hj) p hp).1, Or.inl ⟨hsub j hj, hp⟩⟩
    · by_cases hjc : j = m.kern.OSTCBCur
      · subst hjc
        rw [exit_pc_self, Pc.taken_none hsec] at hp
        cases hp
      · rw [exit_pc hjc] at hp
        exact ⟨(h.sections.taken j (hsub j hj) p hp).1, Or.inl ⟨hsub j hj, hp⟩⟩
    · by_cases hjc : j = m.kern.OSTCBCur
      · subst hjc
        rw [exit_pc_self]
        exact hpend
      · rw [exit_pc hjc] at hs ⊢
        exact h.sections.pend j (hsub j hj) hs
    · exact absurd (hstop j (hsub j hj) hs) (hne j hj)
    · change ((m.exit m.pc x).pc x.kern.OSTCBCur).sec = none
      rw [show x.kern.OSTCBCur = m.kern.OSTCBCur from congrArg Ctl.OSTCBCur hctl, exit_pc_self]
      exact hsec
  · rintro (hs | hl')
    · cases hs.symm.trans hsched'
    · exact (List.mem_erase_of_ne (hcurNe hl')).mpr hcur

end

theorem proceed (h : m.Inv A) (hlevel : m.TaskLevel) (hsched : m.at.sched = false)
    (hsec : m.at.sec ≠ none) :
    ∃ s x as A', m.at.sec = some s ∧ s.exec m.kern = some x ∧ x.Goes m.kern A as ∧
      s.Acts m.kern A x as ∧ exec Model.step A as = some A' ∧ (m.exit (m.entry s) x).Inv A' := by
  have hcur := h.cur (Or.inl ⟨hsched, hlevel.2⟩)
  obtain ⟨s, hs⟩ := Option.ne_none_iff_exists'.mp hsec
  obtain ⟨x, as, hx, hgoes, hacts⟩ :=
    Section.exec_result h.rep h.idle h.run (h.sections.holds hcur hs)
  obtain ⟨A', hexec, hrep⟩ := hgoes.rep
  refine ⟨s, x, as, A', hs, hx, hgoes, hacts, hexec, ?_⟩
  cases s with
  | tcbInit prio => exact h.section_alloc hlevel hsched hrep hgoes.ctl hexec hs hacts
  | tcbLink prio ptcb => exact h.section_link hlevel hsched hrep hgoes.ctl hexec hs hacts
  | release prio => exact h.section_release hlevel hsched hrep hgoes.ctl hexec hs hacts
  | delete prio ptcb => exact h.section_delete hlevel hsched hrep hgoes.ctl hexec hs hacts

theorem pend_end (h : m.Inv A) (hlevel : m.TaskLevel) (hat : m.at.sched = false)
    (hpend : m.at.pend ≠ none) :
    ∃ e o, m.at.pend = some (A.kind e, e) ∧ (A.task m.kern.OSTCBCur).phase = .ended e o ∧
      (pendEnd (A.kind e) e m.kern).1 = o.result (A.kind e) ∧
      A.Allowed (.change m.kern.OSTCBCur (.finish e o)) ∧
      (m.exit m.pc ((pendEnd (A.kind e) e m.kern).2.ret OS_ERR_NONE)).Inv
        (A.after (.change m.kern.OSTCBCur (.finish e o))) := by
  have hcur := h.cur (Or.inl ⟨hat, hlevel.2⟩)
  have hpc := h.pc _ hcur
  rw [← Machine.at] at hpc
  have hno : ∀ prio ptcb, m.at.sec ≠ some (.delete prio ptcb) := fun p t hs =>
    hpend (h.at_pend hcur hs)
  rcases Nat.eq_zero_or_pos m.kern.OSLockNesting with hlock | hlock
  · have hfresh := h.fresh hlevel.1 hlock (Or.inr hat)
    obtain ⟨_, hready, _⟩ := hfresh.current hlevel.2
    cases hph : (A.task m.kern.OSTCBCur).phase with
    | run n =>
        rw [hph] at hpc
        exact absurd hpc hpend
    | wait e n =>
        have hwaits := hready.2.1
        rw [hph] at hwaits
        cases hwaits
    | stopped e =>
        have hstop := hready.2.2.2
        rw [hph] at hstop
        cases hstop
    | ended e o =>
        rw [hph] at hpc
        obtain ⟨hres, hrep, hctl, hlock'⟩ := pendEnd_spec (A.kind e) h.rep hcur hph hready.1
        have ha : A.Allowed (.change m.kern.OSTCBCur (.finish e o)) := ⟨hcur, hph⟩
        have hself : ∀ {t : Task}, (A.edit m.kern.OSTCBCur t).task m.kern.OSTCBCur = t :=
          Model.edit_task_self
        refine ⟨e, o, hpc, rfl, hres, ha, ?_⟩
        refine h.of_exit hlevel (Model.exec_one ha) hrep hctl ?_ ?_ (fun _ => hcur) ?_ h.prioCur
          ?_ ?_
        · intro i hi
          change _ = ((A.edit m.kern.OSTCBCur _).task i).phase.event.map _
          by_cases hic : i = m.kern.OSTCBCur
          · subst hic
            rw [exit_pc_self, hself]
            rfl
          · rw [exit_pc hic, Model.edit_task_of_ne hic]
            exact h.pc i hi
        · refine h.sections.returns hno hctl hcur rfl (fun i hi _ => Or.inr ⟨hi, rfl⟩)
            (fun i hi _ p hp => (h.sections.reserved i hi p hp).1)
            (fun i hi _ p hp => (h.sections.taken i hi p hp).1) fun i hi => ?_
          change ((A.edit m.kern.OSTCBCur _).task i).phase.stops = false
          by_cases hic : i = m.kern.OSTCBCur
          · subst hic
            rw [hself]
            rfl
          · rw [Model.edit_task_of_ne hic]
            exact h.sections.not_stopped hno hi
        · intro i hi hi'
          by_cases hic : i = m.kern.OSTCBCur
          · exact hic
          · change ((A.edit m.kern.OSTCBCur _).task i).prio = _ at hi'
            rw [Model.edit_task_of_ne hic] at hi'
            exact h.sync i hi hi'
        · intro _ _
          exact hfresh.edit_ready hlevel.2 rfl ⟨hready.1, rfl, rfl, rfl⟩
        · intro hl
          change (pendEnd (A.kind e) e m.kern).2.OSLockNesting > 0 at hl
          rw [hlock', hlock] at hl
          exact absurd hl (Nat.lt_irrefl 0)
  · rcases (h.locked hlock).2 with hph | hstop
    · rw [hph] at hpc
      exact absurd hpc hpend
    · cases (h.sections.not_stopped hno hcur).symm.trans hstop

/-! ### The scheduler -/

/-- The rule for the scheduler, when it is not locked and no interrupt is active. -/
theorem of_schedule (h : m.Inv A) {k : Kern} (hrep : k.Rep A) (hrun : k.OSRunning = true)
    (hcur : k.OSTCBCur = m.kern.OSTCBCur) (hprio : k.OSPrioCur = m.kern.OSPrioCur)
    (hlock : k.OSLockNesting = 0) (hlock' : k.OSLockNesting = m.kern.OSLockNesting)
    (htick : m.tick = none) {pc' : ℕ → Pc} (hpc : ∀ i, (pc' i).pend = (m.pc i).pend)
    (hsec : ∀ i, (pc' i).sec = (m.pc i).sec) :
    Machine.Inv { m with kern := schedule k, pc := pc' } A := by
  have hsync : ∀ i ∈ A.list, (A.task i).prio = k.OSPrioCur → i = k.OSTCBCur := by
    rw [hcur, hprio]
    exact h.sync
  obtain ⟨hrep', hfresh⟩ := hrep.schedule h.idle hsync
  obtain ⟨prio, high, pend, he⟩ := schedule_eq k
  rw [he] at hrep' hfresh ⊢
  refine {
    rep := hrep'
    idle := h.idle
    served := h.served
    run := hrun
    pc := fun i hi => (hpc i).trans (h.pc i hi)
    sections := h.sections.congr hsec hpc hcur hlock'
    cur := ?_
    sync := hsync
    prioCur := by
      change k.OSPrioCur ∉ A.reserved
      rw [hprio]
      exact h.prioCur
    fresh := fun _ _ _ => hfresh
    locked := fun hl => absurd hlock (Nat.ne_of_gt hl)
    tick := fun c hc => nomatch htick.symm.trans hc }
  rintro (⟨_, hpend⟩ | hl)
  · exact (hfresh.current hpend).1
  · exact absurd hlock (Nat.ne_of_gt hl)

theorem sched (h : m.Inv A) (hlevel : m.TaskLevel) :
    Machine.Inv { m with
      kern := osSched m.kern
      pc := Function.update m.pc m.kern.OSTCBCur { m.at with sched := false } } A := by
  have hpc : ∀ i, (Function.update m.pc m.kern.OSTCBCur { m.at with sched := false } i).pend =
      (m.pc i).pend := by
    intro i
    by_cases hic : i = m.kern.OSTCBCur
    · subst hic
      rw [Function.update_self]
      rfl
    · rw [Function.update_of_ne hic]
  have hsec : ∀ i, (Function.update m.pc m.kern.OSTCBCur { m.at with sched := false } i).sec =
      (m.pc i).sec := by
    intro i
    by_cases hic : i = m.kern.OSTCBCur
    · subst hic
      rw [Function.update_self]
      rfl
    · rw [Function.update_of_ne hic]
  unfold osSched
  rw [if_pos hlevel.1]
  split
  · rename_i hlock
    exact h.of_schedule h.rep h.run rfl rfl hlock rfl (h.tick_none hlevel.1) hpc hsec
  · rename_i hlock
    exact {
      rep := h.rep
      idle := h.idle
      served := h.served
      run := h.run
      pc := fun i hi => (hpc i).trans (h.pc i hi)
      sections := h.sections.congr hsec hpc rfl rfl
      cur := fun _ => h.cur (Or.inr (Nat.pos_of_ne_zero hlock))
      sync := h.sync
      prioCur := h.prioCur
      fresh := fun _ hl => absurd hl hlock
      locked := h.locked
      tick := h.tick }

theorem pendSV (h : m.Inv A) (hint : m.kern.OSIntNesting = 0) (hpend : m.kern.pendSV = true) :
    ∃ k, pendSVHandler m.kern = some k ∧ Machine.Inv { m with kern := k } A := by
  have hlock : m.kern.OSLockNesting = 0 := by
    by_contra hne
    cases hpend.symm.trans (h.locked (Nat.pos_of_ne_zero hne)).1
  obtain ⟨i, hi, hhigh, hprio, hready, hleast, _⟩ := h.fresh hint hlock (Or.inl hpend)
  unfold pendSVHandler
  rw [hhigh]
  refine ⟨_, rfl, ?_⟩
  exact {
    rep := h.rep.congr rfl rfl rfl rfl rfl rfl rfl
    idle := h.idle
    served := h.served
    run := h.run
    pc := h.pc
    -- the scheduler is not locked, so that there is no deletion
    sections := {
      reserved := h.sections.reserved
      taken := h.sections.taken
      pend := h.sections.pend
      delete := fun j hj p t hs =>
        absurd hlock (Nat.ne_of_gt (h.sections.delete j hj p t hs).2.2.1)
      stopped := fun j hj hs =>
        absurd hlock (Nat.ne_of_gt (h.sections.stopped j hj hs).choose_spec.2)
      gone := fun hgone => absurd hi hgone }
    cur := fun _ => hi
    sync := fun j hj hj' => h.rep.ok.unique j hj i hi (hj'.trans hprio.symm)
    prioCur := hprio ▸ h.rep.ok.fresh i hi
    fresh := fun _ _ _ => ⟨i, hi, rfl, hprio, hready, hleast, Or.inr rfl⟩
    locked := fun hl => absurd hlock (Nat.ne_of_gt hl)
    tick := h.tick }

/-! ### Interrupts -/

/-- The rule for what interrupts do, without the scheduler. -/
theorem of_interrupt (h : m.Inv A) (as : List Act) (hexec : exec Model.step A as = some A')
    (has : ∀ a ∈ as, a.Remote m.kern.OSPrioCur) {k : Kern} (hrep : k.Rep A')
    (hcur : k.OSTCBCur = m.kern.OSTCBCur) (hprio : k.OSPrioCur = m.kern.OSPrioCur)
    (hpend : k.pendSV = m.kern.pendSV) (hrun : k.OSRunning = m.kern.OSRunning)
    (hlock : k.OSLockNesting > 0 → m.kern.OSLockNesting > 0)
    (hdel : ∀ prio ptcb, m.at.sec = some (.delete prio ptcb) →
      k.OSLockNesting = m.kern.OSLockNesting)
    (hsched : k.OSIntNesting = 0 → k.OSLockNesting > 0) {tick : Option (Option ℕ)}
    (htick : ∀ c, tick = some c →
      k.OSIntNesting > 0 ∧ ∃ l₁ l₂, A.list = l₁ ++ l₂ ∧ l₂ ≠ [] ∧ c = l₂.head?) :
    Machine.Inv { m with kern := k, tick := tick } A' := by
  obtain ⟨hok, hidle, hserved⟩ := h.rep.ok.exec h.idle h.served hexec
  have hnear := Model.Near.exec has hexec
  refine {
    rep := hrep
    idle := hidle
    served := hserved
    run := hrun.trans h.run
    pc := fun i hi => ?_
    sections := h.sections.near hnear hcur hdel
    cur := fun hl => ?_
    sync := fun i hi hi' => ?_
    prioCur := ?_
    fresh := fun hint hl => absurd hl (Nat.ne_of_gt (hsched hint))
    locked := fun hl => ?_
    tick := fun c hc => ?_ }
  · rw [hnear.list] at hi
    rw [hnear.kind, hnear.event]
    exact h.pc i hi
  · change (m.pc k.OSTCBCur).sched = false ∧ k.pendSV = false ∨ _ at hl
    change k.OSTCBCur ∈ A'.list
    rw [hcur, hpend] at hl
    rw [hcur, hnear.list]
    exact h.cur (hl.imp_right hlock)
  · rw [hnear.list] at hi
    exact (h.sync i hi (hnear.prio i (hi'.trans hprio))).trans hcur.symm
  · change k.OSPrioCur ∉ A'.reserved
    rw [hprio, hnear.reserved]
    exact h.prioCur
  · obtain ⟨hp, hph⟩ := h.locked (hlock hl)
    refine ⟨hpend.trans hp, ?_⟩
    change (A'.task k.OSTCBCur).phase = _ ∨ (A'.task k.OSTCBCur).phase.stops = _
    rw [hcur, hnear.stops]
    exact hph.imp_left (hnear.run _)
  · rw [hnear.list]
    exact htick c hc

theorem intEnter (h : m.Inv A) (hint : m.kern.OSIntNesting < 255) :
    Machine.Inv { m with kern := osIntEnter m.kern } A := by
  unfold osIntEnter
  rw [if_pos h.run, if_pos hint]
  have hrep : Kern.Rep { m.kern with OSIntNesting := m.kern.OSIntNesting + 1 } A :=
    h.rep.congr rfl rfl rfl rfl rfl rfl rfl
  refine h.of_interrupt [] rfl nofun hrep rfl rfl rfl rfl id (fun _ _ _ => rfl) ?_ fun c hc => ?_
  · exact fun hz => absurd hz (Nat.succ_ne_zero _)
  · exact ⟨Nat.succ_pos _, (h.tick c hc).2⟩

theorem intExit (h : m.Inv A) (hint : m.kern.OSIntNesting > 0)
    (hlast : m.kern.OSIntNesting = 1 → m.tick = none) :
    Machine.Inv { m with kern := osIntExit m.kern } A := by
  have hrep : Kern.Rep { m.kern with OSIntNesting := m.kern.OSIntNesting - 1 } A :=
    h.rep.congr rfl rfl rfl rfl rfl rfl rfl
  have htick : ∀ c, m.tick = some c → m.kern.OSIntNesting - 1 > 0 ∧
      ∃ l₁ l₂, A.list = l₁ ++ l₂ ∧ l₂ ≠ [] ∧ c = l₂.head? := by
    intro c hc
    refine ⟨?_, (h.tick c hc).2⟩
    by_contra hle
    cases (hlast (by omega)).symm.trans hc
  unfold osIntExit
  rw [if_pos h.run, if_pos hint]
  simp only
  split
  · rename_i hnone
    split
    · rename_i hlock
      exact h.of_schedule hrep h.run rfl rfl hlock rfl (hlast (by omega)) (fun _ => rfl)
        fun _ => rfl
    · rename_i hlock
      exact h.of_interrupt [] rfl nofun hrep rfl rfl rfl rfl id (fun _ _ _ => rfl)
        (fun _ => Nat.pos_of_ne_zero hlock) htick
  · rename_i hsome
    exact h.of_interrupt [] rfl nofun hrep rfl rfl rfl rfl id (fun _ _ _ => rfl)
      (fun hn => absurd hn hsome) htick

theorem isr (h : m.Inv A) (hint : m.kern.OSIntNesting > 0) (hc : c.Contract m.kern)
    (hspared : m.Spared c) :
    ∃ x as A', c.exec m.kern = some x ∧ c.Effect m.kern A x as ∧
      exec Model.step A as = some A' ∧
      Machine.Inv { m with kern := if x.sched then osSched x.kern else x.kern } A' := by
  have hno : m.kern.OSIntNesting ≠ 0 := Nat.ne_of_gt hint
  obtain ⟨x, hx, as, heffect⟩ :=
    exec_result h.rep h.run hc (fun h0 => absurd h0 hno) fun i hi hs =>
      ⟨hint, h.spared hspared hi hs⟩
  obtain ⟨A', hexec, hrep, hctl⟩ := heffect.exec h.rep
  refine ⟨x, as, A', hx, heffect, hexec, ?_⟩
  have hint' : x.kern.OSIntNesting = m.kern.OSIntNesting := congrArg Ctl.OSIntNesting hctl
  have hsched : (if x.sched then osSched x.kern else x.kern) = x.kern := by
    have hne : x.kern.OSIntNesting ≠ 0 := hint'.trans_ne hno
    unfold osSched
    rw [if_neg hne, ite_self]
  have hremote : ∀ a ∈ as, a.Remote m.kern.OSPrioCur := by
    rcases heffect with ⟨rfl, _⟩ | ⟨_, hacts⟩ | ⟨_, hbegins⟩
    · exact nofun
    · rcases hacts.cases h.rep hc hexec with ⟨_, hremote⟩ | ⟨h0, _⟩
      · exact hremote
      · exact absurd h0 hno
    · cases c with
      | create prio => exact absurd hbegins.1 hno
      | del prio => exact absurd hbegins.1 hno
      | _ => exact hbegins.elim
  have hlock : x.kern.OSLockNesting = m.kern.OSLockNesting ∨
      c = .unlock ∧ m.kern.OSLockNesting > 0 := by
    rcases heffect with ⟨_, ⟨hx, _⟩ | hlocks⟩ | ⟨hdoes, _⟩ | ⟨_, hbegins⟩
    · rw [hx]
      exact Or.inl rfl
    · cases c with
      | lock => exact absurd hlocks.1 hno
      | unlock => exact Or.inr ⟨rfl, hlocks.1⟩
      | _ => exact hlocks.elim
    · exact Or.inl hdoes.lock
    · cases c with
      | create prio => exact absurd hbegins.1 hno
      | del prio => exact absurd hbegins.1 hno
      | _ => exact hbegins.elim
  rw [hsched]
  refine h.of_interrupt _ hexec hremote hrep (congrArg Ctl.OSTCBCur hctl)
    (congrArg Ctl.OSPrioCur hctl) (congrArg Ctl.pendSV hctl) (congrArg Ctl.OSRunning hctl)
    (fun hl => ?_) (fun prio ptcb hat => ?_) (fun h0 => absurd (hint'.symm.trans h0) hno)
    fun c hc => ?_
  · rcases hlock with hsame | ⟨_, hpos⟩
    · exact hsame ▸ hl
    · exact hpos
  · rcases hlock with hsame | ⟨rfl, _⟩
    · exact hsame
    · unfold Machine.Spared at hspared
      rw [hat] at hspared
      exact hspared.elim
  · rw [hint']
    exact h.tick c hc

theorem tickTime_rep (h : m.Inv A) : (tickTime m.kern).Rep A :=
  h.rep.congr rfl rfl rfl rfl rfl rfl rfl

theorem tick_start (h : m.Inv A) (hint : m.kern.OSIntNesting > 0) :
    Machine.Inv { m with kern := tickTime m.kern, tick := some m.kern.OSTCBList } A := by
  refine h.of_interrupt [] rfl nofun h.tickTime_rep rfl rfl rfl rfl id (fun _ _ _ => rfl)
    (fun h0 => absurd h0 (Nat.ne_of_gt hint)) ?_
  rintro c ⟨⟩
  obtain ⟨idle, hlast, _⟩ := h.idle
  refine ⟨hint, [], A.list, rfl, ?_, h.rep.links.first_eq⟩
  rintro hnil
  rw [hnil] at hlast
  cases hlast

/-- The loop of `OSTimeTick` comes to the idle task last. -/
theorem tick_loop (h : m.Inv A) {cur : Option ℕ} (hcur : m.tick = some cur) :
    ∃ i ∈ A.list, cur = some i ∧
      ((m.kern.OSTCBTbl i).OSTCBPrio = OS_TASK_IDLE_PRIO ∧ (A.task i).phase = .run 0 ∨
        (m.kern.OSTCBTbl i).OSTCBPrio ≠ OS_TASK_IDLE_PRIO ∧
          ∃ l₁ l₂, A.list = l₁ ++ i :: l₂ ∧ l₂ ≠ []) := by
  obtain ⟨_, l₁, l₂, hlist, hne, hcur'⟩ := h.tick cur hcur
  obtain ⟨idle, hlast, htask⟩ := h.idle
  cases l₂ with
  | nil => exact absurd rfl hne
  | cons i l₂ =>
      have hi : i ∈ A.list := by
        rw [hlist]
        exact List.mem_append_right l₁ List.mem_cons_self
      have hprio := (h.rep.task i hi).prio
      refine ⟨i, hi, hcur', ?_⟩
      by_cases he : (m.kern.OSTCBTbl i).OSTCBPrio = OS_TASK_IDLE_PRIO
      · have hidle : i = idle := by
          refine h.rep.ok.unique i hi idle (List.mem_of_getLast? hlast) ?_
          rw [htask, ← hprio, he]
        exact Or.inl ⟨he, by rw [hidle, htask]⟩
      · refine Or.inr ⟨he, l₁, l₂, hlist, ?_⟩
        rintro rfl
        rw [hlist, List.getLast?_concat] at hlast
        obtain rfl := Option.some.inj hlast
        exact he (hprio.trans (by rw [htask]))

theorem tickTcb (h : m.Inv A) (hint : m.kern.OSIntNesting > 0) {cur : Option ℕ}
    (hcur : m.tick = some cur) :
    ∃ m' i A', m.next .tickTcb = some m' ∧ cur = some i ∧ i ∈ A.list ∧
      exec Model.step A (tickActs i (A.task i).phase) = some A' ∧ m'.Inv A' := by
  have hno : m.kern.OSIntNesting ≠ 0 := Nat.ne_of_gt hint
  obtain ⟨i, hi, rfl, hloop⟩ := h.tick_loop hcur
  unfold next
  simp only [hcur, Option.bind_eq_bind, Option.bind_some]
  rcases hloop with ⟨hidle, hph⟩ | ⟨hne, l₁, l₂, hlist, hl₂⟩
  · rw [if_pos hidle]
    refine ⟨_, i, A, rfl, rfl, hi, by rw [hph]; rfl, ?_⟩
    exact h.of_interrupt [] rfl nofun h.rep rfl rfl rfl rfl id (fun _ _ _ => rfl)
      (fun h0 => absurd h0 hno) nofun
  · rw [if_neg hne]
    obtain ⟨A', hexec, hrep⟩ := tickTcb_spec h.rep hi
    refine ⟨_, i, A', rfl, rfl, hi, hexec, ?_⟩
    have hremote := tickActs_remote i (A.task i).phase m.kern.OSPrioCur
    obtain ⟨tbl, rdy, he⟩ := tickTcb_eq i m.kern
    have hnext := (((Model.Near.exec hremote hexec).list.trans hlist) ▸ hrep.links).next_eq
    rw [he] at hrep hnext ⊢
    refine h.of_interrupt _ hexec hremote hrep rfl rfl rfl rfl id (fun _ _ _ => rfl)
      (fun h0 => absurd h0 hno) ?_
    rintro c ⟨⟩
    exact ⟨hint, l₁ ++ [i], l₂, by rw [hlist, List.append_assoc]; rfl, hl₂, hnext⟩

end Inv

/-! ### All events -/

/-- The steps of the model that an event is. -/
def Acts (m : Machine) (A : Model) (as : List Act) : Event → Prop
  | .call c => ∃ x, c.exec m.kern = some x ∧ c.Effect m.kern A x as
  | .isr c => ∃ x, c.exec m.kern = some x ∧ c.Effect m.kern A x as
  | .pendEnd =>
      ∃ e o, m.at.pend = some (A.kind e, e) ∧ (A.task m.kern.OSTCBCur).phase = .ended e o ∧
        (pendEnd (A.kind e) e m.kern).1 = o.result (A.kind e) ∧
        as = [.change m.kern.OSTCBCur (.finish e o)]
  | .proceed =>
      ∃ s x, m.at.sec = some s ∧ s.exec m.kern = some x ∧ x.Goes m.kern A as ∧ s.Acts m.kern A x as
  | .tickTcb => ∃ i ∈ A.list, m.tick = some (some i) ∧ as = tickActs i (A.task i).phase
  | _ => as = []

/-- Every event that is enabled has a result, preserves the invariant, and is steps of the
model. -/
theorem Inv.step (h : m.Inv A) {ev : Event} (he : m.Enabled ev) (hc : m.Contract ev) :
    ∃ m' as A', m.step ev = some m' ∧ m.Acts A as ev ∧ exec Model.step A as = some A' ∧
      m'.Inv A' := by
  rw [Machine.step, if_pos he]
  cases ev with
  | call c =>
      obtain ⟨x, as, A', hx, heffect, hexec, hinv⟩ := h.call he.1 he.2.1 he.2.2 hc
      exact ⟨_, as, A', next_call hx, ⟨x, hx, heffect⟩, hexec, hinv⟩
  | sched => exact ⟨_, [], A, rfl, rfl, rfl, h.sched he.1⟩
  | pendEnd =>
      obtain ⟨e, o, hat, hph, hres, ha, hinv⟩ := h.pend_end he.1 he.2.1 he.2.2
      refine ⟨_, _, _, ?_, ⟨e, o, hat, hph, hres, rfl⟩, Model.exec_one ha, hinv⟩
      unfold next
      rw [hat]
      rfl
  | proceed =>
      obtain ⟨s, x, as, A', hs, hx, hgoes, hacts, hexec, hinv⟩ := h.proceed he.1 he.2.1 he.2.2
      exact ⟨_, as, A', next_proceed hs hx, ⟨s, x, hs, hx, hgoes, hacts⟩, hexec, hinv⟩
  | pendSV =>
      obtain ⟨k, hk, hinv⟩ := h.pendSV he.1 he.2
      refine ⟨_, [], A, ?_, rfl, rfl, hinv⟩
      unfold next
      rw [hk]
      rfl
  | intEnter => exact ⟨_, [], A, rfl, rfl, rfl, h.intEnter he⟩
  | intExit => exact ⟨_, [], A, rfl, rfl, rfl, h.intExit he.1 he.2⟩
  | isr c =>
      obtain ⟨x, as, A', hx, heffect, hexec, hinv⟩ := h.isr he hc.1 hc.2
      refine ⟨_, as, A', ?_, ⟨x, hx, heffect⟩, hexec, hinv⟩
      unfold next
      simp only [hx]
      rfl
  | tick =>
      refine ⟨_, [], A, ?_, rfl, rfl, h.tick_start he.1⟩
      unfold next
      simp only [tickTime, h.run, if_true]
  | tickTcb =>
      obtain ⟨cur, hcur⟩ := Option.ne_none_iff_exists'.mp he.2
      obtain ⟨m', i, A', hm', rfl, hi, hexec, hinv⟩ := h.tickTcb he.1 hcur
      exact ⟨m', _, A', hm', ⟨i, hi, hcur, rfl⟩, hexec, hinv⟩

end Machine

end Stm32Templet.Core
