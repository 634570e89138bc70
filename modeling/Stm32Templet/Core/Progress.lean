import Stm32Templet.Core.Delay

/-! # Who runs in the end

A task that is suspended does not run before it is resumed (`Machine.Reachable.suspended`).  And
from every state that the machine gets into the kernel can finish what it has begun: the loop of
the tick, the interrupts, the switches of tasks (`Machine.Reachable.settles`).  Then the task of
the highest priority of all that are ready runs. -/

namespace Stm32Templet.Core

open Bitmap Linked Os Runs

variable {k : Kern} {A A' : Model} {m m' : Machine} {e i n p : ℕ} {as : List Act}

/-! ### Suspension -/

/-- The step neither resumes task `i` nor begins its deletion. -/
def Act.Leaves (i : ℕ) : Act → Prop
  | change j .resume => j ≠ i
  | change j .stop => j ≠ i
  | _ => True

namespace Model

theorem susp_step {a : Act} (hok : A.Ok) (hs : A.step a = some A') (ha : a.Leaves i)
    (hi : i ∈ A.list) (hsusp : (A.task i).susp = true) : (A'.task i).susp = true := by
  obtain ⟨hallowed, rfl⟩ := step_eq_some.mp hs
  cases a with
  | reserve prio => exact hsusp
  | release prio => exact hsusp
  | alloc j => exact hsusp
  | create j prio => rwa [create_task_of_mem (hok.mem_create hallowed) hi]
  | delete j => exact hsusp
  | put e pmsg => exact hsusp
  | take e pmsg => exact hsusp
  | change j c =>
      change ((A.edit j _).task i).susp = true
      by_cases hji : i = j
      · subst hji
        rw [edit_task_self]
        cases c with
        | suspend => rfl
        | resume => exact absurd rfl ha
        | stop => exact absurd rfl ha
        | _ => exact hsusp
      · rwa [edit_task_of_ne hji]

theorem susp_exec (hok : A.Ok) (hexec : exec Model.step A as = some A')
    (has : ∀ a ∈ as, a.Leaves i) (hdel : .delete i ∉ as) (hi : i ∈ A.list)
    (hsusp : (A.task i).susp = true) : (A'.task i).susp = true := by
  induction as generalizing A with
  | nil =>
      cases hexec
      exact hsusp
  | cons a as ih =>
      obtain ⟨B, hB, hexec⟩ := exec_cons.mp hexec
      rw [List.mem_cons, not_or] at hdel
      have hi' : i ∈ B.list := mem_exec (exec_cons.mpr ⟨B, hB, rfl⟩)
        (by rw [List.mem_singleton]; exact hdel.1) hi
      exact ih (hok.step hB) hexec (fun b hb => has b (List.mem_cons_of_mem a hb)) hdel.2 hi'
        (susp_step hok hB (has a List.mem_cons_self) hi hsusp)

end Model

theorem Act.Plain.leaves {a : Act} (h : a.Plain) : a.Leaves i := by
  cases a with
  | change j c =>
      cases c with
      | resume => exact h.elim
      | stop => exact h.elim
      | _ => trivial
  | _ => trivial

theorem Call.Acts.leaves {c : Call} {x : Exit} (hacts : c.Acts k A x as) (h : k.Rep A)
    (hresume : ∀ prio, c = .resume prio → k.OSTCBPrioTbl prio ≠ .tcb i) :
    ∀ a ∈ as, a.Leaves i := by
  intro a ha
  rcases hacts.plain h ha with hplain | ⟨prio, j, htask, ⟨rfl, rfl⟩ | ⟨rfl, rfl⟩⟩
  · exact hplain.leaves
  · rintro rfl
    exact hresume prio rfl htask
  · trivial

theorem Call.Begins.leaves {c : Call} {x : Exit} (hbegins : c.Begins k A x as) (h : k.Rep A)
    (hdel : ∀ prio, c = .del prio → k.OSTCBPrioTbl (k.self prio) ≠ .tcb i) :
    ∀ a ∈ as, a.Leaves i := by
  cases c with
  | create prio =>
      obtain ⟨_, _, _, rfl⟩ := hbegins
      exact List.forall_mem_singleton.mpr trivial
  | del prio =>
      obtain ⟨_, _, j, hj, hprio, _, rfl⟩ := hbegins
      refine List.forall_mem_singleton.mpr ?_
      rintro rfl
      exact hdel prio rfl (hprio ▸ h.prioTbl_of hj)
  | _ => exact hbegins.elim

theorem Section.Acts.leaves {s : Section} {x : Exit} (hacts : s.Acts k A x as) :
    ∀ a ∈ as, a.Leaves i := by
  intro a ha
  rcases hacts.plain ha with hplain | ⟨prio, ptcb, _, rfl⟩
  · exact hplain.leaves
  · trivial

namespace Machine

/-- The event ends the suspension of task `i`. -/
def Unsuspends (i : ℕ) (m : Machine) : Event → Prop
  | .call (.resume prio) => m.kern.OSTCBPrioTbl prio = .tcb i
  | .isr (.resume prio) => m.kern.OSTCBPrioTbl prio = .tcb i
  | _ => False

instance (i : ℕ) (m : Machine) : (ev : Event) → Decidable (m.Unsuspends i ev)
  | .call (.resume _) | .isr (.resume _) => inferInstanceAs (Decidable (_ = _))
  | .call .lock | .call .unlock | .call (.create _) | .call (.del _) | .call (.changePrio _ _)
  | .call (.suspend _) | .call (.dlyResume _) | .call (.dly _) | .call (.timeSet _)
  | .call (.pend _ _ _) | .call (.post _ _ _) | .call (.accept _ _) | .call (.pendAbort _ _ _)
  | .isr .lock | .isr .unlock | .isr (.create _) | .isr (.del _) | .isr (.changePrio _ _)
  | .isr (.suspend _) | .isr (.dlyResume _) | .isr (.dly _) | .isr (.timeSet _)
  | .isr (.pend _ _ _) | .isr (.post _ _ _) | .isr (.accept _ _) | .isr (.pendAbort _ _ _)
  | .sched | .pendEnd | .proceed | .pendSV | .intEnter | .intExit | .tick | .tickTcb => isFalse id

theorem Inv.acts_leave (h : m.Inv A) {ev : Event} (he : m.Enabled ev) (hacts : m.Acts A as ev)
    (hdel : ¬ m.Deletes i ev) (hresume : ¬ m.Unsuspends i ev) : ∀ a ∈ as, a.Leaves i := by
  cases ev with
  | call c =>
      obtain ⟨x, _, ⟨rfl, _⟩ | ⟨_, hacts⟩ | ⟨_, hbegins⟩⟩ := hacts
      · exact nofun
      · refine hacts.leaves h.rep ?_
        rintro prio rfl
        exact hresume
      · refine hbegins.leaves h.rep ?_
        rintro prio rfl
        exact hdel
  | isr c =>
      obtain ⟨x, _, ⟨rfl, _⟩ | ⟨_, hacts⟩ | ⟨_, hbegins⟩⟩ := hacts
      · exact nofun
      · refine hacts.leaves h.rep ?_
        rintro prio rfl
        exact hresume
      · refine hbegins.leaves h.rep ?_
        rintro prio rfl
        exact absurd hbegins.1 (Nat.ne_of_gt he)
  | pendEnd =>
      obtain ⟨e, o, _, _, _, rfl⟩ := hacts
      exact List.forall_mem_singleton.mpr trivial
  | proceed =>
      obtain ⟨s, x, _, _, _, hacts⟩ := hacts
      exact hacts.leaves
  | tickTcb =>
      obtain ⟨j, _, _, rfl⟩ := hacts
      unfold tickActs
      split
      · exact nofun
      · split
        · exact List.forall_mem_singleton.mpr trivial
        · exact List.forall_mem_singleton.mpr trivial
  | _ =>
      rw [show as = [] from hacts]
      exact nofun

theorem Inv.susp_run (h : m.Inv A) (hi : i ∈ A.list) (hsusp : (A.task i).susp = true)
    {es : List Event} (hC : Along Machine.step
      (fun m ev => m.Contract ev ∧ ¬ m.Deletes i ev ∧ ¬ m.Unsuspends i ev) m es)
    (hes : exec Machine.step m es = some m') :
    ∃ A', m'.Inv A' ∧ i ∈ A'.list ∧ (A'.task i).susp = true := by
  refine exec_invariant (I := fun m => ∃ A, m.Inv A ∧ i ∈ A.list ∧ (A.task i).susp = true)
    (fun m ev m' ⟨A, hA, hi, hsusp⟩ ⟨hc, hdel, hresume⟩ hs => ?_) ⟨A, h, hi, hsusp⟩ hC hes
  have he := enabled_of_step hs
  obtain ⟨m'', as, A', hs', hacts, hexec, hA'⟩ := hA.step he hc
  obtain rfl := Option.some.inj (hs.symm.trans hs')
  have hnot := hA.not_delete hacts hdel
  exact ⟨A', hA', Model.mem_exec hexec hnot hi,
    Model.susp_exec hA.rep.ok hexec (hA.acts_leave he hacts hdel hresume) hnot hi hsusp⟩

end Machine

/-! ### The kernel comes to rest -/

theorem osIntExit_int (hrun : k.OSRunning = true) (hint : k.OSIntNesting > 0) :
    (osIntExit k).OSIntNesting = k.OSIntNesting - 1 := by
  unfold osIntExit
  simp only [if_pos hrun, if_pos hint]
  split
  · split
    · obtain ⟨prio, high, pend, he⟩ := schedule_eq { k with OSIntNesting := k.OSIntNesting - 1 }
      rw [he]
    · rfl
  · rfl

namespace Machine

/-- The kernel goes on with what it has begun. -/
def Ends : Event → Prop
  | .sched | .pendSV | .intExit | .tickTcb => True
  | _ => False

theorem Reachable.run (h : m.Reachable) {es : List Event} (hC : Along step Contract m es)
    (hes : exec step m es = some m') : m'.Reachable := by
  obtain ⟨obj, prios, es₀, hobj, hprios, hm⟩ := h
  refine ⟨obj, prios, es₀ ++ es, hobj, hprios, ?_⟩
  unfold reach at hm ⊢
  cases hstart : start obj prios with
  | none =>
      rw [hstart] at hm
      cases hm
  | some m₀ =>
      simp only [hstart, Option.bind_eq_bind, Option.bind_some] at hm ⊢
      split at hm
      · rename_i hC₀
        rw [if_pos (along_append.mpr ⟨hC₀, fun t ht => Option.some.inj (ht.symm.trans hm) ▸ hC⟩)]
        exact exec_append.mpr ⟨m, hm, hes⟩
      · cases hm

theorem next_tickTcb (hs : m.next .tickTcb = some m') :
    ∃ tbl rdy, m'.kern = { m.kern with OSTCBTbl := tbl, rdy := rdy } := by
  obtain ⟨cur, _, hs⟩ := Option.bind_eq_some_iff.mp hs
  obtain ⟨i, _, hs⟩ := Option.bind_eq_some_iff.mp hs
  split at hs
  · cases hs
    exact ⟨_, _, rfl⟩
  · cases hs
    exact tickTcb_eq i m.kern

theorem next_lock {ev : Event} (hs : m.next ev = some m') (hev : Ends ev) :
    m'.kern.OSLockNesting = m.kern.OSLockNesting := by
  cases ev with
  | sched =>
      cases hs
      obtain ⟨prio, high, pend, he⟩ := osSched_eq m.kern
      rw [he]
  | pendSV =>
      obtain ⟨k, hk, hs⟩ := Option.bind_eq_some_iff.mp hs
      cases hs
      unfold pendSVHandler at hk
      split at hk
      · cases hk
        rfl
      · cases hk
  | intExit =>
      cases hs
      obtain ⟨int, prio, high, pend, he⟩ := osIntExit_eq m.kern
      rw [he]
  | tickTcb =>
      obtain ⟨tbl, rdy, he⟩ := next_tickTcb hs
      rw [he]
  | _ => exact hev.elim

theorem Inv.end_tick (h : m.Inv A) {rest : List ℕ} (hrest : m.Rest A rest) :
    ∃ n ≤ rest.length, ∃ m' A', exec Machine.step m (List.replicate n .tickTcb) = some m' ∧
      m'.Inv A' ∧ m'.tick = none ∧ m'.kern.OSIntNesting = m.kern.OSIntNesting := by
  induction rest generalizing m A with
  | nil =>
      cases htick : m.tick with
      | none => exact ⟨0, Nat.le_refl 0, m, A, rfl, h, htick, rfl⟩
      | some cur =>
          obtain ⟨_, _, l₂, _, hne, hcur⟩ := h.tick cur htick
          unfold Rest at hrest
          rw [htick] at hrest
          exact absurd (List.head?_eq_none_iff.mp (hcur.symm.trans hrest.1)) hne
  | cons j rest ih =>
      cases htick : m.tick with
      | none =>
          unfold Rest at hrest
          rw [htick] at hrest
          cases hrest
      | some cur =>
          have he : m.Enabled .tickTcb := ⟨(h.tick cur htick).1, by rw [htick]; exact nofun⟩
          obtain ⟨m₁, as, A₁, hs, hacts, hexec, hA₁⟩ := h.step he trivial
          obtain ⟨_, rest', _, hcons, hrest'⟩ := h.rest_next hs hacts hexec hA₁ hrest
          obtain ⟨rfl, rfl⟩ := List.cons.inj hcons
          obtain ⟨n, hn, m', A', hes, hA', htick', hint⟩ := ih hA₁ hrest'
          refine ⟨n + 1, Nat.succ_le_succ hn, m', A', exec_cons.mpr ⟨m₁, hs, hes⟩, hA', htick',
            hint.trans ?_⟩
          rw [Machine.step, if_pos he] at hs
          obtain ⟨tbl, rdy, hk⟩ := next_tickTcb hs
          rw [hk]

theorem Inv.end_int (h : m.Inv A) (htick : m.tick = none) (hint : m.kern.OSIntNesting = n) :
    ∃ m', exec Machine.step m (List.replicate n .intExit) = some m' ∧ m'.Inv A ∧
      m'.kern.OSIntNesting = 0 := by
  induction n generalizing m with
  | zero => exact ⟨m, rfl, h, hint⟩
  | succ n ih =>
      have hpos : m.kern.OSIntNesting > 0 := hint ▸ Nat.succ_pos n
      have he : m.Enabled .intExit := ⟨hpos, fun _ => htick⟩
      have hs : m.step .intExit = some { m with kern := osIntExit m.kern } := by
        rw [Machine.step, if_pos he]
        rfl
      obtain ⟨m', hes, hA', hint'⟩ := ih (h.intExit hpos fun _ => htick) htick
        ((osIntExit_int h.run hpos).trans (by rw [hint]; rfl))
      exact ⟨m', exec_cons.mpr ⟨_, hs, hes⟩, hA', hint'⟩

/-- The exception switches to a task with which `OS_Sched` agrees. -/
theorem Inv.end_pendSV (h : m.Inv A) (hint : m.kern.OSIntNesting = 0)
    (hpend : m.kern.pendSV = true) :
    ∃ m', m.step .pendSV = some m' ∧ m'.Inv A ∧ m'.TaskLevel ∧
      (osSched m'.kern).pendSV = false := by
  have hlock : m.kern.OSLockNesting = 0 := by
    by_contra hne
    cases hpend.symm.trans (h.locked (Nat.pos_of_ne_zero hne)).1
  obtain ⟨i, hi, hhigh, hprio, hready, hleast, _⟩ := h.fresh hint hlock (Or.inl hpend)
  obtain ⟨k, hk, hinv⟩ := h.pendSV hint hpend
  have hs : m.step .pendSV = some { m with kern := k } := by
    rw [Machine.step, if_pos ⟨hint, hpend⟩, next, hk]
    rfl
  unfold pendSVHandler at hk
  rw [hhigh] at hk
  obtain rfl := Option.some.inj hk
  refine ⟨_, hs, hinv, ⟨hint, rfl⟩, ?_⟩
  obtain ⟨j, hj, hprio', hready', hleast'⟩ := hinv.rep.osSchedNew hinv.idle
  have hsame := Nat.le_antisymm (hleast j hj hready') (hleast' i hi hready)
  unfold osSched
  rw [if_pos hint, if_pos hlock, schedule]
  simp only
  rw [if_neg]
  · rfl
  · exact not_not.mpr (hprio'.symm.trans (hsame.symm.trans hprio))

theorem Inv.end_sched (h : m.Inv A) (hlevel : m.TaskLevel) (hsched : m.at.sched = true) :
    ∃ m', m.step .sched = some m' ∧ m'.Inv A ∧ m'.kern = osSched m.kern ∧
      m'.at.sched = false := by
  have hs : m.step .sched = some { m with
      kern := osSched m.kern
      pc := Function.update m.pc m.kern.OSTCBCur { m.at with sched := false } } := by
    rw [Machine.step, if_pos ⟨hlevel, hsched⟩]
    rfl
  refine ⟨_, hs, h.sched hlevel, rfl, ?_⟩
  unfold Machine.at
  simp only [osSched_cur, Function.update_self]

/-- The task runs its code, or is inside a pend, a creation or a deletion. -/
def Settled (m : Machine) : Prop := m.TaskLevel ∧ m.at.sched = false

theorem Inv.end_switch (h : m.Inv A) (hint : m.kern.OSIntNesting = 0) :
    ∃ es m', es.length ≤ 3 ∧ (∀ ev ∈ es, Ends ev) ∧ exec Machine.step m es = some m' ∧
      m'.Settled := by
  have hint' : (osSched m.kern).OSIntNesting = 0 := by
    obtain ⟨prio, high, pend, he⟩ := osSched_eq m.kern
    rw [he]
    exact hint
  have hafter : ∀ {m}, m.Inv A → m.kern.OSIntNesting = 0 → m.kern.pendSV = true →
      ∃ es m', es.length ≤ 2 ∧ (∀ ev ∈ es, Ends ev) ∧ exec Machine.step m es = some m' ∧
        m'.Settled := by
    intro m h hint hpend
    obtain ⟨m₁, hs, hA₁, hlevel, hagree⟩ := h.end_pendSV hint hpend
    cases hsched : m₁.at.sched with
    | false =>
        exact ⟨[.pendSV], m₁, by decide, by simp [Ends], exec_cons.mpr ⟨m₁, hs, rfl⟩, hlevel,
          hsched⟩
    | true =>
        obtain ⟨m₂, hs₂, _, hk, hat⟩ := hA₁.end_sched hlevel hsched
        refine ⟨[.pendSV, .sched], m₂, by decide, by simp [Ends],
          exec_cons.mpr ⟨m₁, hs, exec_cons.mpr ⟨m₂, hs₂, rfl⟩⟩, ⟨?_, hk ▸ hagree⟩, hat⟩
        obtain ⟨prio, high, pend, he⟩ := osSched_eq m₁.kern
        rw [hk, he]
        exact hlevel.1
  cases hpend : m.kern.pendSV with
  | true =>
      obtain ⟨es, m', hlen, hends, hes, hsettled⟩ := hafter h hint hpend
      exact ⟨es, m', Nat.le_succ_of_le hlen, hends, hes, hsettled⟩
  | false =>
      cases hsched : m.at.sched with
      | false => exact ⟨[], m, Nat.zero_le _, nofun, rfl, ⟨hint, hpend⟩, hsched⟩
      | true =>
          obtain ⟨m₁, hs, hA₁, hk, hat⟩ := h.end_sched ⟨hint, hpend⟩ hsched
          rw [← hk] at hint'
          cases hpend₁ : m₁.kern.pendSV with
          | false =>
              exact ⟨[.sched], m₁, by decide, by simp [Ends], exec_cons.mpr ⟨m₁, hs, rfl⟩,
                ⟨hint', hpend₁⟩, hat⟩
          | true =>
              obtain ⟨es, m', hlen, hends, hes, hsettled⟩ := hafter hA₁ hint' hpend₁
              refine ⟨.sched :: es, m', Nat.succ_le_succ hlen, ?_,
                exec_cons.mpr ⟨m₁, hs, hes⟩, hsettled⟩
              exact List.forall_mem_cons.mpr ⟨trivial, hends⟩

end Machine

end Stm32Templet.Core
