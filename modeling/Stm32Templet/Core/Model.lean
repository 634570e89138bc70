import Mathlib.Data.Set.Insert
import Stm32Templet.Core.Sched
import Stm32Templet.Lib.Runs

/-! # The kernel without its data structures

What the kernel is for: tasks that run their own code, wait for an event or are delayed, and
events, which are buffers of messages.  There are no tables, bits and pointers here; which tasks
are ready and which ones wait for an event is read off the tasks.  A semaphore is a buffer whose
messages say nothing, and a mailbox one with room for a single message.

`Model.step` has what can happen to the tasks and the buffers, and the conditions under which it
does.  The functions of the kernel are compositions of these steps. -/

namespace Stm32Templet.Core

open Os Runs

/-! ### Tasks -/

/-- How a pend ends. -/
inductive Outcome where
  | got (pmsg : ℕ)
  | timeout
  | abort
deriving DecidableEq

/-- A task runs its own code, waits for an event, or waited for one and has not run since, or it is
being deleted.  `dly` are the ticks that a delay or the time limit of a pend still has, or zero. -/
inductive Phase where
  | run (dly : ℕ)
  | wait (e dly : ℕ)
  | ended (e : ℕ) (o : Outcome)
  | stopped (e : Option ℕ)
deriving DecidableEq

namespace Phase

@[simp] def dly : Phase → ℕ
  | run n => n
  | wait _ n => n
  | _ => 0

/-- The event of the pend that the task is in, or was in when its deletion began. -/
@[simp] def event : Phase → Option ℕ
  | run _ => none
  | wait e _ => some e
  | ended e _ => some e
  | stopped e => e

@[simp] def stops : Phase → Bool
  | stopped _ => true
  | _ => false

@[simp] def waits : Phase → Option ℕ
  | wait e _ => some e
  | _ => none

/-- The event on whose waiting list the task is.  A task stays there after its time limit, until
it runs. -/
@[simp] def listed : Phase → Option ℕ
  | wait e _ => some e
  | ended e .timeout => some e
  | _ => none

@[simp] def countdown : Phase → Phase
  | run n => run (n - 1)
  | wait e n => wait e (n - 1)
  | ph => ph

@[simp] def expire : Phase → Phase
  | run _ => run 0
  | wait e _ => ended e .timeout
  | ph => ph

theorem dly_countdown {ph : Phase} : ph.countdown.dly = ph.dly - 1 := by cases ph <;> rfl

theorem listed_countdown {ph : Phase} : ph.countdown.listed = ph.listed := by cases ph <;> rfl

theorem listed_expire {ph : Phase} : ph.expire.listed = ph.listed := by cases ph <;> rfl

theorem stops_countdown {ph : Phase} : ph.countdown.stops = ph.stops := by cases ph <;> rfl

theorem stops_expire {ph : Phase} : ph.expire.stops = ph.stops := by cases ph <;> rfl

end Phase

structure Task where
  prio : ℕ
  susp : Bool
  phase : Phase
deriving DecidableEq

namespace Task

def Ready (t : Task) : Prop :=
  t.susp = false ∧ t.phase.waits = none ∧ t.phase.dly = 0 ∧ t.phase.stops = false

instance (t : Task) : Decidable t.Ready := inferInstanceAs (Decidable (_ ∧ _ ∧ _ ∧ _))

/-- The task is on the waiting list of the event. -/
def Listed (e : ℕ) (t : Task) : Prop := t.phase.listed = some e

instance (e : ℕ) (t : Task) : Decidable (t.Listed e) := inferInstanceAs (Decidable (_ = _))

end Task

/-! ### Tasks and buffers -/

/-- A semaphore, mailbox or queue. -/
structure Buffer where
  kind : Kind
  room : ℕ
  /-- The messages, the oldest first. -/
  items : List ℕ

/-- Tasks and free task control blocks are numbers; the task created last is the first in `list`.
While a task is created its priority is reserved, and its task control block is taken. -/
structure Model where
  list : List ℕ
  free : List ℕ
  reserved : List ℕ
  taken : List ℕ
  task : ℕ → Task
  buffer : ℕ → Buffer

namespace Model

variable (A : Model)

def edit (i : ℕ) (t : Task) : Model := { A with task := Function.update A.task i t }

def setItems (e : ℕ) (l : List ℕ) : Model :=
  { A with buffer := Function.update A.buffer e { A.buffer e with items := l } }

def kind (e : ℕ) : Kind := (A.buffer e).kind

/-- The priorities of the tasks that satisfy `P`. -/
def prios (P : Task → Prop) : Set ℕ := { p | ∃ i ∈ A.list, (A.task i).prio = p ∧ P (A.task i) }

/-- No two tasks have the same priority, and none has one that is reserved.  A task control block is
free, taken, or that of a task.  A task that is being deleted is not suspended, and buffers have no
more messages than there is room for. -/
structure Ok : Prop where
  nodup : (A.list ++ (A.free ++ A.taken)).Nodup
  unique : ∀ i ∈ A.list, ∀ j ∈ A.list, (A.task i).prio = (A.task j).prio → i = j
  prio_le : ∀ i ∈ A.list, (A.task i).prio ≤ OS_LOWEST_PRIO
  fresh : ∀ i ∈ A.list, (A.task i).prio ∉ A.reserved
  reserved_le : ∀ p ∈ A.reserved, p ≤ OS_LOWEST_PRIO
  live : ∀ i ∈ A.list, (A.task i).phase.stops = true → (A.task i).susp = false
  fits : ∀ e, (A.buffer e).items.length ≤ (A.buffer e).room

/-- The idle task, which was created first, is ready. -/
def Idle : Prop := ∃ i, A.list.getLast? = some i ∧ A.task i = ⟨ OS_TASK_IDLE_PRIO, false, .run 0⟩

/-- No task waits for an event whose buffer is not empty. -/
def Served : Prop := ∀ e, (A.buffer e).items ≠ [] → ∀ i ∈ A.list, ¬ (A.task i).Listed e

end Model

/-! ### Steps -/

/-- What can happen to a task. -/
inductive Change where
  | setPrio (prio : ℕ)
  | suspend
  | resume
  | delay (n : ℕ)
  | countdown
  | expire
  | wait (e n : ℕ)
  /-- The task gets the event it waits for, or its pend is aborted. -/
  | wake (e : ℕ) (o : Outcome)
  /-- The task leaves its pend. -/
  | finish (e : ℕ) (o : Outcome)
  /-- The deletion of the task begins. -/
  | stop

@[simp] def Change.apply : Change → Task → Task
  | setPrio prio, t => { t with prio := prio }
  | suspend, t => { t with susp := true }
  | resume, t => { t with susp := false }
  | delay n, t => { t with phase := .run n }
  | countdown, t => { t with phase := t.phase.countdown }
  | expire, t => { t with phase := t.phase.expire }
  | wait e n, t => { t with phase := .wait e n }
  | wake e o, t => { t with phase := .ended e o }
  | finish _ _, t => { t with phase := .run 0 }
  | stop, t => { t with susp := false, phase := .stopped t.phase.event }

inductive Act where
  | reserve (prio : ℕ)
  | release (prio : ℕ)
  | alloc (i : ℕ)
  | create (i prio : ℕ)
  | delete (i : ℕ)
  | change (i : ℕ) (c : Change)
  | put (e pmsg : ℕ)
  | take (e pmsg : ℕ)

namespace Model

variable (A : Model)

/-- The conditions for a change of task `i`. -/
def Permits (i : ℕ) : Change → Prop
  | .setPrio prio =>
      (A.task i).prio ≠ OS_TASK_IDLE_PRIO ∧ prio < OS_TASK_IDLE_PRIO ∧
        ((∀ j ∈ A.list, (A.task j).prio ≠ prio) ∧ prio ∉ A.reserved) ∧
        (A.task i).phase.listed = (A.task i).phase.event ∧ (A.task i).phase.stops = false
  | .suspend => (A.task i).prio ≠ OS_TASK_IDLE_PRIO ∧ (A.task i).phase.stops = false
  | .resume => (A.task i).susp = true
  | .delay _ => (A.task i).prio ≠ OS_TASK_IDLE_PRIO ∧ (A.task i).phase = .run 0
  | .countdown => (A.task i).phase.dly > 1
  | .expire => (A.task i).phase.dly > 0
  | .wait e _ =>
      (A.task i).prio ≠ OS_TASK_IDLE_PRIO ∧ (A.task i).phase = .run 0 ∧ (A.buffer e).items = []
  | .wake e o =>
      (A.task i).Listed e ∧ o ≠ .timeout ∧
        ∀ j ∈ A.list, (A.task j).Listed e → (A.task i).prio ≤ (A.task j).prio
  | .finish e o => (A.task i).phase = .ended e o
  | .stop => (A.task i).prio ≠ OS_TASK_IDLE_PRIO ∧ (A.task i).phase.stops = false

instance (i : ℕ) : (c : Change) → Decidable (A.Permits i c)
  | .setPrio _ => inferInstanceAs (Decidable (_ ∧ _ ∧ (_ ∧ _) ∧ _ ∧ _))
  | .suspend => inferInstanceAs (Decidable (_ ∧ _))
  | .resume => inferInstanceAs (Decidable (_ = _))
  | .delay _ => inferInstanceAs (Decidable (_ ∧ _))
  | .countdown => inferInstanceAs (Decidable (_ > _))
  | .expire => inferInstanceAs (Decidable (_ > _))
  | .wait _ _ => inferInstanceAs (Decidable (_ ∧ _ ∧ _))
  | .wake _ _ => inferInstanceAs (Decidable (_ ∧ _ ∧ _))
  | .finish _ _ => inferInstanceAs (Decidable (_ = _))
  | .stop => inferInstanceAs (Decidable (_ ∧ _))

/-- The conditions of a step. -/
def Allowed : Act → Prop
  | .reserve prio =>
      prio ≤ OS_LOWEST_PRIO ∧ (∀ j ∈ A.list, (A.task j).prio ≠ prio) ∧ prio ∉ A.reserved
  | .release prio => prio ∈ A.reserved
  | .alloc i => A.free.head? = some i
  | .create i prio => i ∈ A.taken ∧ prio ∈ A.reserved
  | .delete i => i ∈ A.list ∧ (A.task i).phase.stops = true
  | .change i c => i ∈ A.list ∧ A.Permits i c
  | .put e _ =>
      (∀ i ∈ A.list, ¬ (A.task i).Listed e) ∧ (A.buffer e).items.length < (A.buffer e).room
  | .take e pmsg => (A.buffer e).items.head? = some pmsg

instance : (a : Act) → Decidable (A.Allowed a)
  | .reserve _ => inferInstanceAs (Decidable (_ ∧ _ ∧ _))
  | .release _ => inferInstanceAs (Decidable (_ ∈ _))
  | .alloc _ => inferInstanceAs (Decidable (_ = _))
  | .create _ _ => inferInstanceAs (Decidable (_ ∧ _))
  | .delete _ => inferInstanceAs (Decidable (_ ∧ _))
  | .change _ _ => inferInstanceAs (Decidable (_ ∧ _))
  | .put _ _ => inferInstanceAs (Decidable (_ ∧ _))
  | .take _ _ => inferInstanceAs (Decidable (_ = _))

/-- What a step does. -/
def after : Act → Model
  | .reserve prio => { A with reserved := prio :: A.reserved }
  | .release prio => { A with reserved := A.reserved.filter (· ≠ prio) }
  | .alloc i => { A with free := A.free.tail, taken := i :: A.taken }
  | .create i prio =>
      { A with
        list := i :: A.list
        reserved := A.reserved.filter (· ≠ prio)
        taken := A.taken.erase i
        task := Function.update A.task i ⟨prio, false, .run 0⟩ }
  | .delete i => { A with list := A.list.erase i, free := i :: A.free }
  | .change i c => A.edit i (c.apply (A.task i))
  | .put e pmsg => A.setItems e ((A.buffer e).items ++ [pmsg])
  | .take e _ => A.setItems e (A.buffer e).items.tail

def step (a : Act) : Option Model := if A.Allowed a then some (A.after a) else none

end Model

/-! ### Lemmas about the operations -/

namespace Model

variable {A A' : Model} {a : Act} {i j e : ℕ} {t : Task} {P : Task → Prop}

theorem step_eq_some : A.step a = some A' ↔ A.Allowed a ∧ A' = A.after a := by
  unfold step
  split <;> simp_all [eq_comm]

theorem exec_one (ha : A.Allowed a) : exec step A [a] = some (A.after a) :=
  exec_cons.mpr ⟨_, step_eq_some.mpr ⟨ha, rfl⟩, rfl⟩

@[simp] theorem edit_task_self : (A.edit i t).task i = t := by simp [edit]

theorem edit_task_of_ne (h : j ≠ i) : (A.edit i t).task j = A.task j := by simp [edit, h]

@[simp] theorem setItems_self {l : List ℕ} :
    (A.setItems e l).buffer e = { A.buffer e with items := l } := by simp [setItems]

@[simp] theorem setItems_kind {l : List ℕ} : (A.setItems e l).kind = A.kind := by
  funext e'
  by_cases he : e' = e <;> simp [kind, setItems, he]

theorem setItems_of_ne {l : List ℕ} {e' : ℕ} (h : e' ≠ e) :
    (A.setItems e l).buffer e' = A.buffer e' := by simp [setItems, h]

theorem Ok.nodup_list (h : A.Ok) : A.list.Nodup := (List.nodup_append.mp h.nodup).1

theorem Ok.not_mem_free (h : A.Ok) (hi : i ∈ A.list) : i ∉ A.free := fun hf =>
  (List.nodup_append.mp h.nodup).2.2 i hi i (List.mem_append_left _ hf) rfl

theorem Ok.not_mem_taken (h : A.Ok) (hi : i ∈ A.list) : i ∉ A.taken := fun ht =>
  (List.nodup_append.mp h.nodup).2.2 i hi i (List.mem_append_right _ ht) rfl

theorem Ok.not_mem_free_of_taken (h : A.Ok) (hi : i ∈ A.taken) : i ∉ A.free := fun hf =>
  (List.nodup_append.mp (List.nodup_append.mp h.nodup).2.1).2.2 i hf i hi rfl

theorem prio_mem_prios (h : A.Ok) (hi : i ∈ A.list) :
    (A.task i).prio ∈ A.prios P ↔ P (A.task i) := by
  constructor
  · rintro ⟨j, hj, he, hP⟩
    exact h.unique j hj i hi he ▸ hP
  · exact fun hP => ⟨i, hi, rfl, hP⟩

theorem mem_prios_edit (h : A.Ok) (hi : i ∈ A.list) {p : ℕ} :
    p ∈ (A.edit i t).prios P ↔
      p = t.prio ∧ P t ∨ p ∈ A.prios P ∧ p ≠ (A.task i).prio := by
  constructor
  · rintro ⟨j, hj, rfl, hP⟩
    by_cases hji : j = i
    · subst hji
      rw [edit_task_self] at hP ⊢
      exact Or.inl ⟨rfl, hP⟩
    · rw [edit_task_of_ne hji] at hP ⊢
      exact Or.inr ⟨⟨j, hj, rfl, hP⟩, fun he => hji (h.unique j hj i hi he)⟩
  · rintro (⟨rfl, hP⟩ | ⟨⟨j, hj, rfl, hP⟩, hne⟩)
    · exact ⟨i, hi, by rw [edit_task_self], by rwa [edit_task_self]⟩
    · have hji : j ≠ i := by
        rintro rfl
        exact hne rfl
      exact ⟨j, hj, by rw [edit_task_of_ne hji], by rwa [edit_task_of_ne hji]⟩

theorem mem_prios_edit_iff (h : A.Ok) (hi : i ∈ A.list) (hprio : t.prio = (A.task i).prio)
    (ht : P t ↔ P (A.task i)) {p : ℕ} : p ∈ (A.edit i t).prios P ↔ p ∈ A.prios P := by
  rw [mem_prios_edit h hi, hprio]
  by_cases hp : p = (A.task i).prio
  · subst hp
    rw [prio_mem_prios h hi]
    simp [ht]
  · simp [hp]

/-! ### Invariants -/

theorem mem_unreserve {prio p : ℕ} :
    p ∈ A.reserved.filter (· ≠ prio) ↔ p ∈ A.reserved ∧ p ≠ prio := by simp

theorem Ok.mem_create (h : A.Ok) {prio : ℕ} (ha : A.Allowed (.create i prio)) : i ∉ A.list :=
  fun hi => h.not_mem_taken hi ha.1

theorem Ok.prio_create (h : A.Ok) {prio : ℕ} (ha : A.Allowed (.create i prio)) :
    ∀ j ∈ A.list, (A.task j).prio ≠ prio := by
  rintro j hj rfl
  exact h.fresh j hj ha.2

theorem listed_change {c : Change} (hc : A.Permits i c) (h : (c.apply (A.task i)).Listed e) :
    (A.task i).Listed e ∨ ∃ n, c = .wait e n := by
  unfold Task.Listed at *
  cases c with
  | wait e' n =>
      obtain rfl : e' = e := by simpa using h
      exact Or.inr ⟨n, rfl⟩
  | countdown =>
      left
      cases hph : (A.task i).phase <;> simp_all
  | expire =>
      left
      cases hph : (A.task i).phase <;> simp_all
  | wake e' o =>
      cases o with
      | timeout => exact absurd rfl hc.2.1
      | got pmsg => cases h
      | abort => cases h
  | setPrio prio => exact Or.inl h
  | suspend => exact Or.inl h
  | resume => exact Or.inl h
  | delay n => cases h
  | finish e' o => cases h
  | stop => cases h

theorem Ok.live_change (h : A.Ok) (hi : i ∈ A.list) {c : Change} (hc : A.Permits i c)
    (hstop : (c.apply (A.task i)).phase.stops = true) : (c.apply (A.task i)).susp = false := by
  cases c with
  | setPrio prio => exact h.live i hi hstop
  | suspend => exact absurd hstop (by simpa using hc.2)
  | resume => rfl
  | countdown => exact h.live i hi (Phase.stops_countdown ▸ hstop)
  | expire => exact h.live i hi (Phase.stops_expire ▸ hstop)
  | delay n => cases hstop
  | wait e n => cases hstop
  | wake e o => cases hstop
  | finish e o => cases hstop
  | stop => rfl

theorem Ok.edit (h : A.Ok) (hle : t.prio ≤ OS_LOWEST_PRIO)
    (hne : ∀ j ∈ A.list, j ≠ i → (A.task j).prio ≠ t.prio) (hfresh : t.prio ∉ A.reserved)
    (hlive : t.phase.stops = true → t.susp = false) : (A.edit i t).Ok := by
  have hother : ∀ {P : Task → Prop}, P t → (∀ j ∈ A.list, P (A.task j)) →
      ∀ j ∈ A.list, P ((A.edit i t).task j) := by
    intro P ht hA j hj
    by_cases hji : j = i
    · subst hji
      rwa [edit_task_self]
    · rw [edit_task_of_ne hji]
      exact hA j hj
  refine ⟨h.nodup, ?_, hother (P := (·.prio ≤ OS_LOWEST_PRIO)) hle h.prio_le,
    hother (P := (·.prio ∉ A.reserved)) hfresh h.fresh, h.reserved_le,
    hother (P := fun t => t.phase.stops = true → t.susp = false) hlive h.live, h.fits⟩
  · intro j hj j' hj' he
    by_cases hji : j = i <;> by_cases hji' : j' = i
    · rw [hji, hji']
    · subst hji
      rw [edit_task_self, edit_task_of_ne hji'] at he
      exact absurd he.symm (hne j' hj' hji')
    · subst hji'
      rw [edit_task_self, edit_task_of_ne hji] at he
      exact absurd he (hne j hj hji)
    · rw [edit_task_of_ne hji, edit_task_of_ne hji'] at he
      exact h.unique j hj j' hj' he

theorem Ok.edit_of_prio (h : A.Ok) (hi : i ∈ A.list) (hprio : t.prio = (A.task i).prio)
    (hlive : t.phase.stops = true → t.susp = false) : (A.edit i t).Ok :=
  h.edit (hprio ▸ h.prio_le i hi)
    (fun j hj hji he => hji (h.unique j hj i hi (he.trans hprio))) (hprio ▸ h.fresh i hi) hlive

theorem Ok.change (h : A.Ok) (hi : i ∈ A.list) {c : Change} (hc : A.Permits i c) :
    (A.edit i (c.apply (A.task i))).Ok := by
  have hlive := h.live_change hi hc
  cases c with
  | setPrio prio =>
      exact h.edit (Nat.le_of_lt hc.2.1) (fun j hj _ => hc.2.2.1.1 j hj) hc.2.2.1.2 hlive
  | _ => exact h.edit_of_prio hi rfl hlive

theorem create_task_self {prio : ℕ} :
    (A.after (.create i prio)).task i = ⟨prio, false, .run 0⟩ := Function.update_self ..

theorem create_task_of_mem (hi : i ∉ A.list) (hj : j ∈ A.list) {prio : ℕ} :
    (A.after (.create i prio)).task j = A.task j := by
  have hji : j ≠ i := fun he => hi (he ▸ hj)
  exact Function.update_of_ne hji _ _

/-- All task control blocks that the kernel has. -/
def tcbs (A : Model) : List ℕ := A.list ++ (A.free ++ A.taken)

theorem perm_alloc (ha : A.Allowed (.alloc i)) : (A.after (.alloc i)).tcbs.Perm A.tcbs := by
  obtain ⟨f, hf⟩ := List.head?_eq_some_iff.mp ha
  change (A.list ++ (A.free.tail ++ i :: A.taken)).Perm _
  rw [tcbs, hf]
  exact List.perm_middle.append_left A.list

theorem perm_create {prio : ℕ} (ha : A.Allowed (.create i prio)) :
    (A.after (.create i prio)).tcbs.Perm A.tcbs := by
  have htaken : A.taken.Perm (i :: A.taken.erase i) := List.perm_cons_erase ha.1
  have hfree : (A.free ++ A.taken).Perm (i :: (A.free ++ A.taken.erase i)) :=
    (htaken.append_left A.free).trans List.perm_middle
  exact (List.perm_middle.symm.trans (hfree.symm.append_left A.list))

theorem perm_delete (hi : i ∈ A.list) : (A.after (.delete i)).tcbs.Perm A.tcbs :=
  List.perm_middle.trans ((List.perm_cons_erase hi).symm.append_right (A.free ++ A.taken))

theorem Ok.reserve (h : A.Ok) {prio : ℕ} (ha : A.Allowed (.reserve prio)) :
    (A.after (.reserve prio)).Ok := by
  refine ⟨h.nodup, h.unique, h.prio_le, fun i hi hmem => ?_, fun p hp => ?_, h.live, h.fits⟩
  · rcases List.mem_cons.mp hmem with he | hmem
    · exact ha.2.1 i hi he
    · exact h.fresh i hi hmem
  · rcases List.mem_cons.mp hp with rfl | hp
    · exact ha.1
    · exact h.reserved_le p hp

theorem Ok.release (h : A.Ok) {prio : ℕ} : (A.after (.release prio)).Ok :=
  ⟨h.nodup, h.unique, h.prio_le, fun i hi hmem => h.fresh i hi (mem_unreserve.mp hmem).1,
    fun p hp => h.reserved_le p (mem_unreserve.mp hp).1, h.live, h.fits⟩

theorem Ok.alloc (h : A.Ok) (ha : A.Allowed (.alloc i)) : (A.after (.alloc i)).Ok :=
  ⟨(perm_alloc ha).nodup_iff.mpr h.nodup, h.unique, h.prio_le, h.fresh, h.reserved_le, h.live,
    h.fits⟩

theorem Ok.create (h : A.Ok) {prio : ℕ} (ha : A.Allowed (.create i prio)) :
    (A.after (.create i prio)).Ok := by
  have hi := h.mem_create ha
  have hfresh := h.prio_create ha
  have hall : ∀ {P : Task → Prop}, P ⟨prio, false, .run 0⟩ → (∀ j ∈ A.list, P (A.task j)) →
      ∀ j ∈ i :: A.list, P ((A.after (.create i prio)).task j) := by
    intro P ht hA j hj
    rcases List.mem_cons.mp hj with rfl | hj
    · rwa [create_task_self]
    · rw [create_task_of_mem hi hj]
      exact hA j hj
  refine ⟨(perm_create ha).nodup_iff.mpr h.nodup, ?_,
    hall (P := (·.prio ≤ OS_LOWEST_PRIO)) (h.reserved_le prio ha.2) h.prio_le,
    hall (P := (·.prio ∉ A.reserved.filter (· ≠ prio))) (by simp) fun j hj hmem =>
      h.fresh j hj (mem_unreserve.mp hmem).1,
    fun p hp => h.reserved_le p (mem_unreserve.mp hp).1,
    hall (P := fun t => t.phase.stops = true → t.susp = false) (fun _ => rfl) h.live, h.fits⟩
  intro j hj j' hj' he
  rcases List.mem_cons.mp hj with hji | hjl <;> rcases List.mem_cons.mp hj' with hji' | hjl'
  · rw [hji, hji']
  · rw [hji, create_task_self, create_task_of_mem hi hjl'] at he
    exact absurd he.symm (hfresh j' hjl')
  · rw [hji', create_task_self, create_task_of_mem hi hjl] at he
    exact absurd he (hfresh j hjl)
  · rw [create_task_of_mem hi hjl, create_task_of_mem hi hjl'] at he
    exact h.unique j hjl j' hjl' he

theorem Ok.delete (h : A.Ok) (hi : i ∈ A.list) : (A.after (.delete i)).Ok := by
  have hsub : ∀ j ∈ A.list.erase i, j ∈ A.list := fun j hj => List.mem_of_mem_erase hj
  exact ⟨(perm_delete hi).nodup_iff.mpr h.nodup,
    fun j hj j' hj' => h.unique j (hsub j hj) j' (hsub j' hj'),
    fun j hj => h.prio_le j (hsub j hj), fun j hj => h.fresh j (hsub j hj), h.reserved_le,
    fun j hj => h.live j (hsub j hj), h.fits⟩

theorem Ok.setItems (h : A.Ok) {l : List ℕ} (hl : l.length ≤ (A.buffer e).room) :
    (A.setItems e l).Ok := by
  refine ⟨h.nodup, h.unique, h.prio_le, h.fresh, h.reserved_le, h.live, fun e' => ?_⟩
  by_cases he : e' = e
  · subst he
    rw [setItems_self]
    exact hl
  · rw [setItems_of_ne he]
    exact h.fits e'

theorem Ok.step (h : A.Ok) (hs : A.step a = some A') : A'.Ok := by
  obtain ⟨ha, rfl⟩ := step_eq_some.mp hs
  cases a with
  | reserve prio => exact h.reserve ha
  | release prio => exact h.release
  | alloc i => exact h.alloc ha
  | create i prio => exact h.create ha
  | delete i => exact h.delete ha.1
  | change i c => exact h.change ha.1 ha.2
  | put e pmsg => exact h.setItems (by rw [List.length_append]; exact ha.2)
  | take e pmsg =>
      refine h.setItems (le_trans ?_ (h.fits e))
      rw [List.length_tail]
      exact Nat.sub_le _ _

/-- Task control blocks do not get lost. -/
theorem perm_step (hs : A.step a = some A') : A'.tcbs.Perm A.tcbs := by
  obtain ⟨ha, rfl⟩ := step_eq_some.mp hs
  cases a with
  | alloc i => exact perm_alloc ha
  | create i prio => exact perm_create ha
  | delete i => exact perm_delete ha.1
  | _ => exact .refl _

theorem prios_create (hi : i ∉ A.list) {prio : ℕ} {p : ℕ} :
    p ∈ (A.after (.create i prio)).prios P ↔
      p = prio ∧ P ⟨prio, false, .run 0⟩ ∨ p ∈ A.prios P := by
  constructor
  · rintro ⟨j, hj, rfl, hP⟩
    rcases List.mem_cons.mp hj with hji | hjl
    · rw [hji, create_task_self] at hP ⊢
      exact Or.inl ⟨rfl, hP⟩
    · rw [create_task_of_mem hi hjl] at hP ⊢
      exact Or.inr ⟨j, hjl, rfl, hP⟩
  · rintro (⟨rfl, hP⟩ | ⟨j, hj, rfl, hP⟩)
    · exact ⟨i, List.mem_cons_self, by rw [create_task_self], by rwa [create_task_self]⟩
    · refine ⟨j, List.mem_cons_of_mem i hj, ?_, ?_⟩
      · rw [create_task_of_mem hi hj]
      · rwa [create_task_of_mem hi hj]

theorem prios_delete (h : A.Ok) (hi : i ∈ A.list) :
    (A.after (.delete i)).prios P = A.prios P \ {(A.task i).prio} := by
  have hmem : ∀ j, j ∈ A.list.erase i ↔ j ≠ i ∧ j ∈ A.list := fun j =>
    h.nodup_list.mem_erase_iff
  ext p
  constructor
  · rintro ⟨j, hj, rfl, hP⟩
    obtain ⟨hji, hjl⟩ := (hmem j).mp hj
    exact ⟨⟨j, hjl, rfl, hP⟩, fun he => hji (h.unique j hjl i hi he)⟩
  · rintro ⟨⟨j, hj, rfl, hP⟩, hne⟩
    have hji : j ≠ i := by
      rintro rfl
      exact hne rfl
    exact ⟨j, (hmem j).mpr ⟨hji, hj⟩, rfl, hP⟩

theorem Idle.ne (h : A.Idle) {c : Change} (hc : A.Permits i c) : A.list.getLast? ≠ some i := by
  obtain ⟨idle, hlast, htask⟩ := h
  rw [hlast]
  rintro he
  obtain rfl := Option.some.inj he
  cases c <;> simp_all [Permits, Task.Listed]

theorem getLast?_erase {l : List ℕ} (hlast : l.getLast? = some j) (hne : i ≠ j) :
    (l.erase i).getLast? = some j := by
  obtain ⟨l', rfl⟩ := List.getLast?_eq_some_iff.mp hlast
  rw [List.erase_append]
  split
  · exact List.getLast?_concat
  · rw [List.erase_of_not_mem (by simpa using hne)]
    exact List.getLast?_concat

theorem Idle.step (hok : A.Ok) (h : A.Idle) (hs : A.step a = some A') : A'.Idle := by
  obtain ⟨ha, rfl⟩ := step_eq_some.mp hs
  obtain ⟨idle, hlast, htask⟩ := h
  have hmem : idle ∈ A.list := List.mem_of_getLast? hlast
  cases a with
  | create i prio =>
      refine ⟨idle, ?_, (create_task_of_mem (hok.mem_create ha) hmem).trans htask⟩
      change (i :: A.list).getLast? = _
      rw [List.getLast?_cons, hlast]
      rfl
  | delete i =>
      have hi : i ≠ idle := by
        rintro rfl
        have hstop := ha.2
        rw [htask] at hstop
        cases hstop
      exact ⟨idle, getLast?_erase hlast hi, htask⟩
  | change i c =>
      refine ⟨idle, hlast, ?_⟩
      have hi : idle ≠ i := by
        rintro rfl
        exact Idle.ne ⟨idle, hlast, htask⟩ ha.2 hlast
      exact (edit_task_of_ne hi).trans htask
  | _ => exact ⟨idle, hlast, htask⟩

theorem Served.step (hok : A.Ok) (h : A.Served) (hs : A.step a = some A') : A'.Served := by
  obtain ⟨ha, rfl⟩ := step_eq_some.mp hs
  intro e he j hj
  cases a with
  | reserve prio => exact h e he j hj
  | release prio => exact h e he j hj
  | alloc i => exact h e he j hj
  | create i prio =>
      rcases List.mem_cons.mp hj with rfl | hj
      · rw [create_task_self]
        exact nofun
      · rw [create_task_of_mem (hok.mem_create ha) hj]
        exact h e he j hj
  | delete i => exact h e he j (List.mem_of_mem_erase hj)
  | change i c =>
      change ¬ Task.Listed e ((A.edit i _).task j)
      by_cases hji : j = i
      · subst hji
        rw [edit_task_self]
        intro hl
        rcases listed_change ha.2 hl with hl | ⟨n, rfl⟩
        · exact h e he j hj hl
        · exact he ha.2.2.2
      · rw [edit_task_of_ne hji]
        exact h e he j hj
  | put e' pmsg =>
      by_cases hee : e = e'
      · subst hee
        exact ha.1 j hj
      · change ((A.setItems e' _).buffer e).items ≠ [] at he
        rw [setItems_of_ne hee] at he
        exact h e he j hj
  | take e' pmsg =>
      refine h e (fun hnil => he ?_) j hj
      change ((A.setItems e' _).buffer e).items = []
      by_cases hee : e = e'
      · subst hee
        rw [setItems_self, hnil]
        rfl
      · rwa [setItems_of_ne hee]

end Model

end Stm32Templet.Core
