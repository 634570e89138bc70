import Stm32Templet.Core.Calls

/-! # The invariant of the kernel

`Machine.Inv` ties the state of the machine to a `Model`: the kernel represents it, and the
variables of the scheduler fit it.  Every event that is enabled has a result and preserves the
invariant (`Machine.Inv.step`), and what it does to the tasks and events are steps of the model
(`Machine.Acts`).

Most steps are remote: they change tasks from outside, as interrupts do, and cannot take a task
out of a pend or into one.  The others are those of a creation or deletion, and the current task
that delays itself, begins a pend or ends it. -/

namespace Stm32Templet.Core

open Bitmap Linked Os Runs

variable {k : Kern} {A A' : Model} {m : Machine} {x : Exit} {c : Call} {as : List Act} {i p : ℕ}

/-! ### Remote steps -/

/-- The step concerns a task from outside, and gives none the priority `p`. -/
def Act.Remote (p : ℕ) : Act → Prop
  | reserve _ | release _ | alloc _ | create _ _ | delete _ => False
  | change _ (.setPrio prio) => prio ≠ p
  | change _ (.delay _) => False
  | change _ (.wait _ _) => False
  | change _ (.finish _ _) => False
  | change _ .stop => False
  | _ => True

namespace Model

/-- What such steps leave alone. -/
structure Near (p : ℕ) (A A' : Model) : Prop where
  list : A'.list = A.list
  reserved : A'.reserved = A.reserved
  taken : A'.taken = A.taken
  kind : A'.kind = A.kind
  event : ∀ i, (A'.task i).phase.event = (A.task i).phase.event
  run : ∀ i, (A.task i).phase = .run 0 → (A'.task i).phase = .run 0
  prio : ∀ i, (A'.task i).prio = p → (A.task i).prio = p
  stops : ∀ i, (A'.task i).phase.stops = (A.task i).phase.stops
  prio_stopped : ∀ i, (A.task i).phase.stops = true → (A'.task i).prio = (A.task i).prio

theorem Near.refl (p : ℕ) (A : Model) : Near p A A :=
  ⟨rfl, rfl, rfl, rfl, fun _ => rfl, fun _ h => h, fun _ h => h, fun _ => rfl, fun _ _ => rfl⟩

theorem Near.trans {A₁ A₂ A₃ : Model} (h : Near p A₁ A₂) (h' : Near p A₂ A₃) : Near p A₁ A₃ where
  list := h'.list.trans h.list
  reserved := h'.reserved.trans h.reserved
  taken := h'.taken.trans h.taken
  kind := h'.kind.trans h.kind
  event i := (h'.event i).trans (h.event i)
  run i hi := h'.run i (h.run i hi)
  prio i hi := h.prio i (h'.prio i hi)
  stops i := (h'.stops i).trans (h.stops i)
  prio_stopped i hi :=
    (h'.prio_stopped i ((h.stops i).trans hi)).trans (h.prio_stopped i hi)

theorem near_edit {t : Task} (hevent : t.phase.event = (A.task i).phase.event)
    (hrun : (A.task i).phase = .run 0 → t.phase = .run 0)
    (hprio : t.prio = p → (A.task i).prio = p) (hstop : t.phase.stops = (A.task i).phase.stops)
    (hprio' : (A.task i).phase.stops = true → t.prio = (A.task i).prio) :
    Near p A (A.edit i t) := by
  refine ⟨rfl, rfl, rfl, rfl, fun j => ?_, fun j hj => ?_, fun j hj => ?_, fun j => ?_,
    fun j hj => ?_⟩
  all_goals
    by_cases hji : j = i
    · subst hji
      simp_all
    · simp_all [edit_task_of_ne hji]

theorem near_setItems {e : ℕ} {l : List ℕ} : Near p A (A.setItems e l) :=
  { Near.refl p A with kind := setItems_kind }

theorem Near.step {a : Act} (ha : a.Remote p) (hs : A.step a = some A') : Near p A A' := by
  obtain ⟨hallowed, rfl⟩ := step_eq_some.mp hs
  cases a with
  | reserve prio => exact ha.elim
  | release prio => exact ha.elim
  | alloc i => exact ha.elim
  | create i prio => exact ha.elim
  | delete i => exact ha.elim
  | put e pmsg => exact near_setItems
  | take e pmsg => exact near_setItems
  | change i c =>
      cases c with
      | delay n => exact ha.elim
      | wait e n => exact ha.elim
      | finish e o => exact ha.elim
      | stop => exact ha.elim
      | setPrio prio =>
          refine near_edit rfl id (fun h => absurd h ha) rfl fun hstop => ?_
          cases hallowed.2.2.2.2.2.symm.trans hstop
      | suspend => exact near_edit rfl id id rfl fun _ => rfl
      | resume => exact near_edit rfl id id rfl fun _ => rfl
      | countdown =>
          refine near_edit ?_ (fun h => ?_) id Phase.stops_countdown fun _ => rfl
          · change (A.task i).phase.countdown.event = _
            cases (A.task i).phase <;> rfl
          · change (A.task i).phase.countdown = _
            rw [h]
            rfl
      | expire =>
          refine near_edit ?_ (fun h => ?_) id Phase.stops_expire fun _ => rfl
          · change (A.task i).phase.expire.event = _
            cases (A.task i).phase <;> rfl
          · change (A.task i).phase.expire = _
            rw [h]
            rfl
      | wake e o =>
          have hlisted : (A.task i).phase.listed = some e := hallowed.2.1
          obtain ⟨hevent, hstop⟩ : (A.task i).phase.event = some e ∧
              (A.task i).phase.stops = false := by
            cases hph : (A.task i).phase with
            | run n => simp [hph] at hlisted
            | wait e' n => exact ⟨by simpa [hph] using hlisted, rfl⟩
            | ended e' o' =>
                cases o' with
                | timeout => exact ⟨by simpa [hph] using hlisted, rfl⟩
                | got pmsg => simp [hph] at hlisted
                | abort => simp [hph] at hlisted
            | stopped e' => simp [hph] at hlisted
          refine near_edit hevent.symm (fun h => ?_) id hstop.symm fun _ => rfl
          rw [h] at hlisted
          cases hlisted

theorem Near.exec (has : ∀ a ∈ as, a.Remote p) (hexec : exec Model.step A as = some A') :
    Near p A A' := by
  induction as generalizing A with
  | nil =>
      cases hexec
      exact Near.refl p _
  | cons a as ih =>
      obtain ⟨B, hB, hexec⟩ := exec_cons.mp hexec
      exact (Near.step (has a List.mem_cons_self) hB).trans
        (ih (fun b hb => has b (List.mem_cons_of_mem a hb)) hexec)

theorem Ok.exec (hok : A.Ok) (hidle : A.Idle) (hserved : A.Served)
    (hexec : exec Model.step A as = some A') : A'.Ok ∧ A'.Idle ∧ A'.Served :=
  exec_invariant' (I := fun A => A.Ok ∧ A.Idle ∧ A.Served) (fun _ _ _ ⟨hok, hidle, hserved⟩ hs =>
    ⟨hok.step hs, hidle.step hok hs, hserved.step hok hs⟩) ⟨hok, hidle, hserved⟩ hexec

end Model

/-! ### The scheduler -/

/-- The task that `OSTCBHighRdy` points to is ready and has the highest priority of all that are,
and it is the current task unless a switch is pending. -/
def Kern.Fresh (k : Kern) (A : Model) : Prop :=
  ∃ i ∈ A.list, k.OSTCBHighRdy = .tcb i ∧ (A.task i).prio = k.OSPrioHighRdy ∧ (A.task i).Ready ∧
    (∀ j ∈ A.list, (A.task j).Ready → (A.task i).prio ≤ (A.task j).prio) ∧
    (k.pendSV = true ∨ i = k.OSTCBCur)

/-- `OS_SchedNew` finds the task of the highest priority. -/
theorem Kern.Rep.osSchedNew (h : k.Rep A) (hidle : A.Idle) :
    ∃ i ∈ A.list, (A.task i).prio = (Core.osSchedNew k).OSPrioHighRdy ∧ (A.task i).Ready ∧
      ∀ j ∈ A.list, (A.task j).Ready → (A.task i).prio ≤ (A.task j).prio := by
  obtain ⟨idle, hlast, htask⟩ := hidle
  have hne : (A.prios Task.Ready).Nonempty :=
    ⟨_, idle, List.mem_of_getLast? hlast, rfl, by rw [htask]; exact ⟨rfl, rfl, rfl, rfl⟩⟩
  obtain ⟨⟨i, hi, hprio, hready⟩, hleast⟩ := h.rdy.isLeast lowestBit_unMap h.mem_prios_lt hne
  refine ⟨i, hi, ?_, hready, fun j hj hj' => hprio ▸ hleast ⟨j, hj, rfl, hj'⟩⟩
  rw [hprio, ← shift_add_eq_least]
  rfl

theorem Kern.Rep.schedule (h : k.Rep A) (hidle : A.Idle)
    (hsync : ∀ i ∈ A.list, (A.task i).prio = k.OSPrioCur → i = k.OSTCBCur) :
    (Core.schedule k).Rep A ∧ (Core.schedule k).Fresh A := by
  obtain ⟨i, hi, hprio, hready, hleast⟩ := h.osSchedNew hidle
  have hhigh : k.OSTCBPrioTbl (Core.osSchedNew k).OSPrioHighRdy = .tcb i := by
    rw [← hprio]
    exact h.prioTbl_of hi
  unfold Core.schedule
  simp only
  split
  · exact ⟨h.congr rfl rfl rfl rfl rfl rfl rfl, i, hi, hhigh, hprio, hready, hleast, Or.inl rfl⟩
  · rename_i he
    refine ⟨h.congr rfl rfl rfl rfl rfl rfl rfl, i, hi, hhigh, hprio, hready, hleast, Or.inr ?_⟩
    exact hsync i hi (hprio.trans (not_not.mp he))

namespace Kern.Fresh

variable (h : k.Fresh A)
include h

theorem congr {k' : Kern} (hctl : k'.ctl = k.ctl) : k'.Fresh A := by
  obtain ⟨i, hi, hhigh, hprio, hready, hleast, hcur⟩ := h
  refine ⟨i, hi, ?_, ?_, hready, hleast, ?_⟩
  · exact (congrArg Ctl.OSTCBHighRdy hctl).trans hhigh
  · exact hprio.trans (congrArg Ctl.OSPrioHighRdy hctl).symm
  · have hpend : k'.pendSV = k.pendSV := congrArg Ctl.pendSV hctl
    have hcur' : k'.OSTCBCur = k.OSTCBCur := congrArg Ctl.OSTCBCur hctl
    rwa [hpend, hcur']

/-- It depends on the tasks only. -/
theorem of_task {A' : Model} (hlist : A'.list = A.list) (htask : A'.task = A.task) :
    k.Fresh A' := by
  obtain ⟨i, hi, hhigh, hprio, hready, hleast, hcur⟩ := h
  exact ⟨i, hlist ▸ hi, hhigh, htask ▸ hprio, htask ▸ hready,
    fun j hj hj' => htask ▸ hleast j (hlist ▸ hj) (htask ▸ hj'), hcur⟩

variable (hpend : k.pendSV = false)
include hpend

/-- Without a pending switch the current task is that of the highest priority. -/
theorem current : k.OSTCBCur ∈ A.list ∧ (A.task k.OSTCBCur).Ready ∧
    ∀ j ∈ A.list, (A.task j).Ready → (A.task k.OSTCBCur).prio ≤ (A.task j).prio := by
  obtain ⟨i, hi, _, _, hready, hleast, hcur⟩ := h
  rw [hpend] at hcur
  obtain rfl := hcur.resolve_left nofun
  exact ⟨hi, hready, hleast⟩

theorem edit (hne : i ≠ k.OSTCBCur) {t : Task} (ht : ¬ t.Ready) : k.Fresh (A.edit i t) := by
  obtain ⟨j, hj, hhigh, hprio, hready, hleast, hcur⟩ := h
  have hcur' := hcur
  rw [hpend] at hcur'
  obtain rfl := hcur'.resolve_left nofun
  have htask : (A.edit i t).task k.OSTCBCur = A.task k.OSTCBCur := Model.edit_task_of_ne hne.symm
  refine ⟨_, hj, hhigh, htask ▸ hprio, htask.symm ▸ hready, fun j' hj' hready' => ?_, hcur⟩
  rw [htask]
  by_cases hji : j' = i
  · subst hji
    rw [Model.edit_task_self] at hready'
    exact absurd hready' ht
  · rw [Model.edit_task_of_ne hji] at hready' ⊢
    exact hleast j' hj' hready'

theorem edit_ready {t : Task} (hprio : t.prio = (A.task k.OSTCBCur).prio) (ht : t.Ready) :
    k.Fresh (A.edit k.OSTCBCur t) := by
  obtain ⟨i, hi, hhigh, hprio', hready, hleast, hcur⟩ := h
  have hcur' := hcur
  rw [hpend] at hcur'
  obtain rfl := hcur'.resolve_left nofun
  refine ⟨_, hi, hhigh, ?_, ?_, fun j hj hready' => ?_, hcur⟩
  · rw [Model.edit_task_self, hprio]
    exact hprio'
  · rwa [Model.edit_task_self]
  · rw [Model.edit_task_self, hprio]
    by_cases hjc : j = k.OSTCBCur
    · subst hjc
      rw [Model.edit_task_self, hprio]
    · rw [Model.edit_task_of_ne hjc] at hready' ⊢
      exact hleast j hj hready'

end Kern.Fresh

/-! ### Creations and deletions in progress -/

/-- What the tasks `l` claim is in `s`, and no two claim the same. -/
def Claims (l : List ℕ) (f : ℕ → Option ℕ) (s : List ℕ) : Prop :=
  ∀ i ∈ l, ∀ p, f i = some p → p ∈ s ∧ ∀ j ∈ l, f j = some p → j = i

/-- The rule for claims: task `c` may claim something new. -/
theorem Claims.step {l l' s s' : List ℕ} {f f' : ℕ → Option ℕ} (h : Claims l f s) (c : ℕ)
    (hstep : ∀ i ∈ l', ∀ p, f' i = some p →
      p ∈ s' ∧ (i ∈ l ∧ f i = some p ∨ i = c ∧ p ∉ s)) : Claims l' f' s' := by
  intro i hi p hp
  obtain ⟨hps, hold⟩ := hstep i hi p hp
  refine ⟨hps, fun j hj hj' => ?_⟩
  obtain ⟨-, holdj⟩ := hstep j hj p hj'
  rcases hold with ⟨hil, hip⟩ | ⟨rfl, hnew⟩ <;> rcases holdj with ⟨hjl, hjp⟩ | ⟨rfl, hnewj⟩
  · exact (h i hil p hip).2 j hjl hjp
  · exact absurd (h i hil p hip).1 hnewj
  · exact absurd (h j hjl p hjp).1 hnew
  · rfl

/-- The priority that a task has reserved for the task it creates. -/
def Pc.reserved (pc : Pc) : Option ℕ :=
  match pc.sec with
  | some (.tcbInit prio) | some (.tcbLink prio _) | some (.release prio) => some prio
  | _ => none

/-- The task control block that it has taken. -/
def Pc.taken (pc : Pc) : Option ℕ :=
  match pc.sec with
  | some (.tcbLink _ ptcb) => some ptcb
  | _ => none

theorem Pc.reserved_eq {pc pc' : Pc} (h : pc.sec = pc'.sec) : pc.reserved = pc'.reserved := by
  rw [Pc.reserved, Pc.reserved, h]

theorem Pc.taken_eq {pc pc' : Pc} (h : pc.sec = pc'.sec) : pc.taken = pc'.taken := by
  rw [Pc.taken, Pc.taken, h]

theorem Pc.reserved_none {pc : Pc} (h : pc.sec = none) : pc.reserved = none := by
  rw [Pc.reserved, h]

theorem Pc.taken_none {pc : Pc} (h : pc.sec = none) : pc.taken = none := by
  rw [Pc.taken, h]

/-! ### The invariant -/

namespace Machine

/-- The creations and deletions in progress.  Only the current task can be inside a deletion, since
it has locked the scheduler. -/
structure Sections (m : Machine) (A : Model) : Prop where
  reserved : Claims A.list (fun i => (m.pc i).reserved) A.reserved
  taken : Claims A.list (fun i => (m.pc i).taken) A.taken
  pend : ∀ i ∈ A.list, (m.pc i).sec ≠ none → (m.pc i).pend = none
  delete : ∀ i ∈ A.list, ∀ prio ptcb, (m.pc i).sec = some (.delete prio ptcb) →
    i = m.kern.OSTCBCur ∧ (Section.delete prio ptcb).Holds A ∧ m.kern.OSLockNesting > 0 ∧
      (ptcb = m.kern.OSTCBCur → m.kern.OSLockNesting = 1)
  stopped : ∀ j ∈ A.list, (A.task j).phase.stops = true →
    ∃ prio, m.at.sec = some (.delete prio j) ∧ m.kern.OSLockNesting > 0
  gone : m.kern.OSTCBCur ∉ A.list → m.at.sec = none

structure Inv (m : Machine) (A : Model) : Prop where
  rep : m.kern.Rep A
  idle : A.Idle
  served : A.Served
  run : m.kern.OSRunning = true
  pc : ∀ i ∈ A.list, (m.pc i).pend = (A.task i).phase.event.map fun e => (A.kind e, e)
  sections : m.Sections A
  /-- The current task can only have been deleted by itself, before the next switch. -/
  cur : m.at.sched = false ∧ m.kern.pendSV = false ∨ m.kern.OSLockNesting > 0 →
    m.kern.OSTCBCur ∈ A.list
  sync : ∀ i ∈ A.list, (A.task i).prio = m.kern.OSPrioCur → i = m.kern.OSTCBCur
  prioCur : m.kern.OSPrioCur ∉ A.reserved
  fresh : m.kern.OSIntNesting = 0 → m.kern.OSLockNesting = 0 →
    (m.kern.pendSV = true ∨ m.at.sched = false) → m.kern.Fresh A
  locked : m.kern.OSLockNesting > 0 → m.kern.pendSV = false ∧
    ((A.task m.kern.OSTCBCur).phase = .run 0 ∨ (A.task m.kern.OSTCBCur).phase.stops = true)
  /-- The rest of the loop over the list. -/
  tick : ∀ c, m.tick = some c →
    m.kern.OSIntNesting > 0 ∧ ∃ l₁ l₂, A.list = l₁ ++ l₂ ∧ l₂ ≠ [] ∧ c = l₂.head?

namespace Inv

variable (h : m.Inv A)
include h

theorem running (hlevel : m.TaskLevel) (hsched : m.at.sched = false) (hpend : m.at.pend = none)
    (hsec : ∀ prio, m.at.sec ≠ some (.delete prio m.kern.OSTCBCur)) :
    m.kern.OSTCBCur ∈ A.list ∧ (A.task m.kern.OSTCBCur).phase = .run 0 := by
  have hcur := h.cur (Or.inl ⟨hsched, hlevel.2⟩)
  refine ⟨hcur, ?_⟩
  rcases Nat.eq_zero_or_pos m.kern.OSLockNesting with hlock | hlock
  · obtain ⟨_, hready, _⟩ := (h.fresh hlevel.1 hlock (Or.inr hsched)).current hlevel.2
    have hpc := h.pc _ hcur
    rw [← Machine.at, hpend] at hpc
    obtain ⟨_, _, hdly, hstop⟩ := hready
    cases hph : (A.task m.kern.OSTCBCur).phase with
    | run n =>
        rw [hph] at hdly
        exact congrArg Phase.run hdly
    | wait e n =>
        rw [hph] at hpc
        cases hpc
    | ended e o =>
        rw [hph] at hpc
        cases hpc
    | stopped e =>
        rw [hph] at hstop
        cases hstop
  · refine (h.locked hlock).2.resolve_right fun hs => ?_
    obtain ⟨prio, hat, _⟩ := h.sections.stopped _ hcur hs
    exact hsec prio hat

theorem running_run (hlevel : m.TaskLevel) (hat : m.at = .run) :
    m.kern.OSTCBCur ∈ A.list ∧ (A.task m.kern.OSTCBCur).phase = .run 0 := by
  refine h.running hlevel ?_ ?_ fun prio hs => ?_
  · rw [hat]
    rfl
  · rw [hat]
    rfl
  · rw [hat] at hs
    cases hs

/-- A call that keeps to the contract leaves the task alone that is being deleted. -/
theorem spared (hspared : m.Spared c) (hi : i ∈ A.list)
    (hstop : (A.task i).phase.stops = true) : c.Spares m.kern (A.task i).prio := by
  obtain ⟨prio, hat, hl⟩ := h.sections.stopped i hi hstop
  obtain ⟨_, ⟨_, rfl⟩, _⟩ := h.sections.delete _ (h.cur (Or.inr hl)) prio i hat
  unfold Machine.Spared at hspared
  rw [hat] at hspared
  exact hspared

/-- The task that is being deleted. -/
theorem deleting_iff : m.deleting = some i ↔ i ∈ A.list ∧ (A.task i).phase.stops = true := by
  constructor
  · intro hdel
    have hsec : ∃ prio, m.at.sec = some (.delete prio i) := by
      unfold Machine.deleting at hdel
      split at hdel
      · rename_i prio ptcb hat
        obtain rfl := Option.some.inj hdel
        exact ⟨prio, hat⟩
      · cases hdel
    obtain ⟨prio, hat⟩ := hsec
    have hcur : m.kern.OSTCBCur ∈ A.list := by
      by_contra hgone
      cases (h.sections.gone hgone).symm.trans hat
    exact (h.sections.delete _ hcur prio i hat).2.1.1
  · rintro ⟨hi, hs⟩
    obtain ⟨prio, hat, _⟩ := h.sections.stopped i hi hs
    rw [Machine.deleting, hat]

/-- A task that creates or deletes another one is not inside a pend. -/
theorem at_pend (hcur : m.kern.OSTCBCur ∈ A.list) {s : Section} (hat : m.at.sec = some s) :
    m.at.pend = none :=
  h.sections.pend _ hcur (Option.ne_none_iff_exists'.mpr ⟨s, hat⟩)

theorem tick_none (hint : m.kern.OSIntNesting = 0) : m.tick = none := by
  cases htick : m.tick with
  | none => rfl
  | some c => exact absurd (h.tick c htick).1 (by omega)

end Inv

end Machine

end Stm32Templet.Core
