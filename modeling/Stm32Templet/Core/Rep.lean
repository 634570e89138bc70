import Stm32Templet.Core.Event
import Stm32Templet.Core.Model
import Stm32Templet.Lib.Linked

/-! # The data structures of the kernel

`Kern.Rep`: the variables of the kernel represent a `Model`.  The list of the task control blocks
and the free list are linked right, `OSTCBPrioTbl` has every task at its priority, and the
bitmaps are those of the tasks that are ready and of the tasks that wait.

`Kern.Rep.edit` is the rule for a change of one task: its task control block has to change
accordingly, and its bits. -/

namespace Stm32Templet.Core

open Bitmap Linked Os

/-! ### Status bytes -/

/-- `OSTCBStat` of a task that waits for an event of the given kind, and may be suspended. -/
def stat : Option Kind → Bool → BitVec 8
  | none, false => OS_STAT_RDY
  | none, true => OS_STAT_SUSPEND
  | some kd, false => kd.msk
  | some kd, true => kd.msk ||| OS_STAT_SUSPEND

section Stat

variable (w : Option Kind) (s : Bool) (kd : Kind)

@[simp] theorem stat_suspend : stat w s ||| OS_STAT_SUSPEND = stat w true := by
  rcases w with _ | (_ | _ | _) <;> cases s <;> decide

@[simp] theorem stat_resume : stat w s &&& ~~~OS_STAT_SUSPEND = stat w false := by
  rcases w with _ | (_ | _ | _) <;> cases s <;> decide

@[simp] theorem stat_and_suspend : stat w s &&& OS_STAT_SUSPEND = OS_STAT_RDY ↔ s = false := by
  rcases w with _ | (_ | _ | _) <;> cases s <;> decide

@[simp] theorem stat_and_pend : stat w s &&& OS_STAT_PEND_ANY = OS_STAT_RDY ↔ w = none := by
  rcases w with _ | (_ | _ | _) <;> cases s <;> decide

@[simp] theorem stat_and_not_pend : stat w s &&& ~~~OS_STAT_PEND_ANY = stat none s := by
  rcases w with _ | (_ | _ | _) <;> cases s <;> decide

@[simp] theorem stat_and_not_msk : stat (some kd) s &&& ~~~kd.msk = stat none s := by
  cases kd <;> cases s <;> decide

@[simp] theorem stat_none_and_not_msk : stat none s &&& ~~~kd.msk = stat none s := by
  cases kd <;> cases s <;> decide

@[simp] theorem stat_or_msk : stat none s ||| kd.msk = stat (some kd) s := by
  cases kd <;> cases s <;> decide

@[simp] theorem stat_eq_rdy : stat w s = OS_STAT_RDY ↔ w = none ∧ s = false := by
  rcases w with _ | (_ | _ | _) <;> cases s <;> decide

end Stat

/-! ### Bits of a task -/

theorem OsTcb.OSTCBY_eq (ptcb : OsTcb) : ptcb.OSTCBY = ptcb.OSTCBPrio / 8 :=
  Nat.shiftRight_eq_div_pow _ 3

theorem OsTcb.OSTCBX_eq (ptcb : OsTcb) : ptcb.OSTCBX = ptcb.OSTCBPrio % 8 :=
  Nat.and_two_pow_sub_one_eq_mod _ 3

section Bits

variable {tbl : Table 8} {S : Set ℕ} (h : tbl.Is S) (ptcb : OsTcb)
include h

theorem is_set : (tbl.set ptcb.OSTCBY ptcb.OSTCBX).Is (insert ptcb.OSTCBPrio S) := by
  rw [ptcb.OSTCBY_eq, ptcb.OSTCBX_eq]
  exact h.insert (by decide) _

theorem is_clear : (tbl.clear ptcb.OSTCBY ptcb.OSTCBX).Is (S \ {ptcb.OSTCBPrio}) := by
  rw [ptcb.OSTCBY_eq, ptcb.OSTCBX_eq]
  exact h.erase (by decide) _

end Bits

/-- The least priority in a bitmap, as it is computed. -/
theorem shift_add_eq_least (tbl : Table 8) :
    (unMap tbl.grp <<< 3) + unMap (tbl.tbl (unMap tbl.grp)) = tbl.least unMap := by
  rw [Nat.shiftLeft_eq]
  rfl

/-! ### Representation -/

/-- `OSTCBStatPend` and `OSTCBMsg`. -/
def Phase.Rep : Phase → StatPend → ℕ → Prop
  | run _, _, _ => True
  | wait _ _, s, _ => s = .OK
  | ended _ (.got pmsg), s, msg => s = .OK ∧ msg = pmsg
  | ended _ .timeout, s, _ => s = .TO
  | ended _ .abort, s, _ => s = .ABORT
  | stopped _, s, _ => s = .OK

/-- The task control block is that of the task. -/
structure OsTcb.Rep (kind : ℕ → Kind) (ptcb : OsTcb) (t : Task) : Prop where
  prio : ptcb.OSTCBPrio = t.prio
  dly : ptcb.OSTCBDly = t.phase.dly
  event : ptcb.OSTCBEventPtr = t.phase.event
  stat : ptcb.OSTCBStat = Core.stat (t.phase.waits.map kind) t.susp
  pend : t.phase.Rep ptcb.OSTCBStatPend ptcb.OSTCBMsg

theorem OsTcb.Rep.ready_iff {kind : ℕ → Kind} {ptcb : OsTcb} {t : Task} (h : ptcb.Rep kind t)
    (hstop : t.phase.stops = false) :
    t.Ready ↔ ptcb.OSTCBStat = OS_STAT_RDY ∧ ptcb.OSTCBDly = 0 := by
  rw [h.stat, h.dly, stat_eq_rdy, Option.map_eq_none_iff, Task.Ready, and_iff_left hstop, and_assoc,
    and_left_comm]

/-- The buffer that a semaphore, mailbox or queue is. -/
def Obj.Rep : Obj → Buffer → Prop
  | sem cnt, b => b.kind = .sem ∧ b.room = 65535 ∧ b.items = List.replicate cnt 0
  | mbox p, b => b.kind = .mbox ∧ b.room = 1 ∧ b.items = if p = 0 then [] else [p]
  | q pq, b => b.kind = .q ∧ b.room = pq.OSQSize ∧ pq.Queue b.items

def Kern.tcbNext (k : Kern) (i : ℕ) : Option ℕ := (k.OSTCBTbl i).OSTCBNext

def Kern.tcbPrev (k : Kern) (i : ℕ) : Option ℕ := (k.OSTCBTbl i).OSTCBPrev

/-- The kernel represents the model. -/
structure Kern.Rep (k : Kern) (A : Model) : Prop where
  ok : A.Ok
  links : Links k.tcbNext k.tcbPrev none k.OSTCBList A.list
  chain : Chain k.tcbNext k.OSTCBFreeList A.free
  ctr : k.OSTaskCtr = A.list.length
  prioTbl : ∀ p i, k.OSTCBPrioTbl p = .tcb i ↔ i ∈ A.list ∧ (A.task i).prio = p
  reserved : ∀ p, k.OSTCBPrioTbl p = .reserved ↔ p ∈ A.reserved
  task : ∀ i ∈ A.list, (k.OSTCBTbl i).Rep A.kind (A.task i)
  obj : ∀ e, (k.OSEventTbl e).obj.Rep (A.buffer e)
  rdy : k.rdy.Is (A.prios Task.Ready)
  wait : ∀ e, (k.OSEventTbl e).wait.Is (A.prios (Task.Listed e))

namespace Kern.Rep

variable {k : Kern} {A : Model} {i e p : ℕ} {t : Task} {ptcb : OsTcb}

theorem prioTbl_of (h : k.Rep A) (hi : i ∈ A.list) : k.OSTCBPrioTbl (A.task i).prio = .tcb i :=
  (h.prioTbl _ i).mpr ⟨hi, rfl⟩

theorem prioTbl_null (h : k.Rep A) :
    k.OSTCBPrioTbl p = .null ↔ (∀ i ∈ A.list, (A.task i).prio ≠ p) ∧ p ∉ A.reserved := by
  constructor
  · intro hnull
    refine ⟨?_, fun hp => ?_⟩
    · rintro i hi rfl
      rw [h.prioTbl_of hi] at hnull
      cases hnull
    · rw [(h.reserved p).mpr hp] at hnull
      cases hnull
  · rintro ⟨hne, hres⟩
    cases hp : k.OSTCBPrioTbl p with
    | null => rfl
    | reserved => exact absurd ((h.reserved p).mp hp) hres
    | tcb i =>
        obtain ⟨hi, hprio⟩ := (h.prioTbl p i).mp hp
        exact absurd hprio (hne i hi)

theorem congr (h : k.Rep A) {k' : Kern} (htcb : k'.OSTCBTbl = k.OSTCBTbl)
    (hprioTbl : k'.OSTCBPrioTbl = k.OSTCBPrioTbl) (hlist : k'.OSTCBList = k.OSTCBList)
    (hfree : k'.OSTCBFreeList = k.OSTCBFreeList) (hctr : k'.OSTaskCtr = k.OSTaskCtr)
    (hrdy : k'.rdy = k.rdy) (hevent : k'.OSEventTbl = k.OSEventTbl) : k'.Rep A := by
  cases k
  cases k'
  cases htcb
  cases hprioTbl
  cases hlist
  cases hfree
  cases hctr
  cases hrdy
  cases hevent
  exact { h with }

theorem mem_prios_lt (h : k.Rep A) {P : Task → Prop} : ∀ p ∈ A.prios P, p < 8 * 8 := by
  rintro p ⟨i, hi, rfl, _⟩
  exact Nat.lt_succ_of_le (h.ok.prio_le i hi)

section Bitmap

variable (h : k.Rep A) (hi : i ∈ A.list) {tbl : Table 8} {P : Task → Prop}
  (htbl : tbl.Is (A.prios P))
include h hi htbl

theorem is_insert (hprio : t.prio = (A.task i).prio) (hptcb : ptcb.OSTCBPrio = t.prio) (hP : P t) :
    (tbl.set ptcb.OSTCBY ptcb.OSTCBX).Is ((A.edit i t).prios P) := by
  refine (is_set htbl ptcb).congr fun p => ?_
  rw [Model.mem_prios_edit h.ok hi, Set.mem_insert_iff, hptcb, ← hprio, and_iff_left hP]
  by_cases hp : p = t.prio <;> simp [hp]

theorem is_remove (hP : ¬ P t) :
    (tbl.clear (k.OSTCBTbl i).OSTCBY (k.OSTCBTbl i).OSTCBX).Is ((A.edit i t).prios P) := by
  refine (is_clear htbl (k.OSTCBTbl i)).congr fun p => ?_
  rw [Model.mem_prios_edit h.ok hi, (h.task i hi).prio]
  simp [hP]

theorem is_move (hptcb : ptcb.OSTCBPrio = t.prio) (hP : P t) :
    ((tbl.clear (k.OSTCBTbl i).OSTCBY (k.OSTCBTbl i).OSTCBX).set ptcb.OSTCBY ptcb.OSTCBX).Is
      ((A.edit i t).prios P) := by
  refine (is_set (is_clear htbl (k.OSTCBTbl i)) ptcb).congr fun p => ?_
  rw [Model.mem_prios_edit h.ok hi, (h.task i hi).prio, ← hptcb, and_iff_left hP]
  exact Iff.rfl

theorem is_same (hprio : t.prio = (A.task i).prio) (hP : P t ↔ P (A.task i)) :
    tbl.Is ((A.edit i t).prios P) :=
  htbl.congr fun _ => (Model.mem_prios_edit_iff h.ok hi hprio hP).symm

theorem is_none (hP : ¬ P t) (hP' : ¬ P (A.task i)) : tbl.Is ((A.edit i t).prios P) := by
  refine htbl.congr fun p => ?_
  rw [Model.mem_prios_edit h.ok hi, or_iff_right fun h' => hP h'.2]
  refine (and_iff_left_of_imp ?_).symm
  rintro hp rfl
  exact hP' ((Model.prio_mem_prios h.ok hi).mp hp)

end Bitmap

section Edit

variable (h : k.Rep A) (hi : i ∈ A.list) {r : Table 8} {w : ℕ → Ecb} (hrep : ptcb.Rep A.kind t)
  (hnext : ptcb.OSTCBNext = (k.OSTCBTbl i).OSTCBNext)
  (hprev : ptcb.OSTCBPrev = (k.OSTCBTbl i).OSTCBPrev) (hok : (A.edit i t).Ok)
include h hi hrep hnext hprev hok

/-- The rule for a change of one task. -/
theorem edit {tbl : ℕ → TcbPtr}
    (htbl : ∀ p j, tbl p = .tcb j ↔ j ∈ A.list ∧ ((A.edit i t).task j).prio = p)
    (hres : ∀ p, tbl p = .reserved ↔ p ∈ A.reserved)
    (hobj : ∀ e, (w e).obj = (k.OSEventTbl e).obj)
    (hr : r.Is ((A.edit i t).prios Task.Ready))
    (hw : ∀ e, (w e).wait.Is ((A.edit i t).prios (Task.Listed e))) :
    Kern.Rep { k with
      OSTCBTbl := Function.update k.OSTCBTbl i ptcb
      OSTCBPrioTbl := tbl
      rdy := r
      OSEventTbl := w } (A.edit i t) := by
  have htcb : ∀ j ≠ i, Function.update k.OSTCBTbl i ptcb j = k.OSTCBTbl j := fun j hj =>
    Function.update_of_ne hj ptcb k.OSTCBTbl
  have hself : Function.update k.OSTCBTbl i ptcb i = ptcb := Function.update_self ..
  have hnext' : ∀ j, (Function.update k.OSTCBTbl i ptcb j).OSTCBNext = k.tcbNext j := by
    intro j
    by_cases hj : j = i
    · subst hj
      rw [hself, hnext, tcbNext]
    · rw [htcb j hj, tcbNext]
  have hprev' : ∀ j, (Function.update k.OSTCBTbl i ptcb j).OSTCBPrev = k.tcbPrev j := by
    intro j
    by_cases hj : j = i
    · subst hj
      rw [hself, hprev, tcbPrev]
    · rw [htcb j hj, tcbPrev]
  refine {
    ok := hok
    links := h.links.congr (fun j _ => hnext' j) fun j _ => hprev' j
    chain := h.chain.congr fun j _ => hnext' j
    ctr := h.ctr
    prioTbl := htbl
    reserved := hres
    task := ?_
    obj := fun e => hobj e ▸ h.obj e
    rdy := hr
    wait := hw }
  intro j hj
  change OsTcb.Rep A.kind (Function.update k.OSTCBTbl i ptcb j) _
  by_cases hji : j = i
  · subst hji
    rw [hself, Model.edit_task_self]
    exact hrep
  · rw [htcb j hji, Model.edit_task_of_ne hji]
    exact h.task j hj

variable (hprio : t.prio = (A.task i).prio)
include hprio

/-- The rule for a change that leaves the priority alone and concerns one waiting list. -/
theorem edit_at {tbl : Table 8} (hr : r.Is ((A.edit i t).prios Task.Ready))
    (htbl : tbl.Is ((A.edit i t).prios (Task.Listed e)))
    (hother : ∀ e' ≠ e, t.Listed e' ↔ (A.task i).Listed e') :
    Kern.Rep { k with
      OSTCBTbl := Function.update k.OSTCBTbl i ptcb
      rdy := r
      OSEventTbl := Function.update k.OSEventTbl e { k.OSEventTbl e with wait := tbl } }
      (A.edit i t) := by
  refine h.edit hi hrep hnext hprev hok (fun p j => ?_) h.reserved
    (fun e' => ?_) hr fun e' => ?_
  · rw [h.prioTbl p j]
    by_cases hj : j = i
    · subst hj
      rw [Model.edit_task_self, hprio]
    · rw [Model.edit_task_of_ne hj]
  · by_cases he : e' = e
    · subst he
      rw [Function.update_self]
    · rw [Function.update_of_ne he]
  · by_cases he : e' = e
    · subst he
      rw [Function.update_self]
      exact htbl
    · rw [Function.update_of_ne he]
      exact h.is_same hi (h.wait e') hprio (hother e' he)

/-- The rule for a change that leaves the priority and all waiting lists alone. -/
theorem edit_rdy (hr : r.Is ((A.edit i t).prios Task.Ready))
    (hlisted : t.phase.listed = (A.task i).phase.listed) :
    Kern.Rep { k with OSTCBTbl := Function.update k.OSTCBTbl i ptcb, rdy := r } (A.edit i t) := by
  have hiff : ∀ e, t.Listed e ↔ (A.task i).Listed e := fun e => by
    rw [Task.Listed, Task.Listed, hlisted]
  have hk := h.edit_at hi hrep hnext hprev hok hprio hr (h.is_same hi (h.wait 0) hprio (hiff 0))
    fun e' _ => hiff e'
  rwa [Function.update_eq_self] at hk

theorem edit_ready (ht : t.Ready) (hlisted : t.phase.listed = (A.task i).phase.listed) :
    ((k.setTcb i ptcb).ready ptcb).Rep (A.edit i t) :=
  h.edit_rdy hi hrep hnext hprev hok hprio (h.is_insert hi h.rdy hprio hrep.prio ht) hlisted

theorem edit_unready (ht : ¬ t.Ready) (hlisted : t.phase.listed = (A.task i).phase.listed) :
    ((k.unready (k.OSTCBTbl i)).setTcb i ptcb).Rep (A.edit i t) :=
  h.edit_rdy hi hrep hnext hprev hok hprio (h.is_remove hi h.rdy ht) hlisted

theorem edit_same (ht : t.Ready ↔ (A.task i).Ready)
    (hlisted : t.phase.listed = (A.task i).phase.listed) :
    (k.setTcb i ptcb).Rep (A.edit i t) :=
  h.edit_rdy hi hrep hnext hprev hok hprio (h.is_same hi h.rdy hprio ht) hlisted

end Edit

end Kern.Rep

end Stm32Templet.Core
