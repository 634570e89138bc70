import Stm32Templet.Lib.Runs
import Stm32Templet.Tasks.Module
import Mathlib.Data.UInt

/-! # Tick accounting of the task loops

The head of the three task loops of `User/src/main.c`: the two reads of `OSTime`, the call of
`Module_Process` and the update of `lastOSTime`.  The tick interrupt may come between any two
of these steps; the message loop and `OSTimeDly` that follow touch none of the variables and
are only time that passes.

A loop remembers its first read of `OSTime` and computes the period from the second, so a
tick between the two is reported twice.  The sum of the periods is the tick up to which the
loop has accounted exactly when no tick comes between the two reads and the first iteration
starts before the narrowing to 16 bits matters (`accounted_iff_undisturbed`). -/

namespace Stm32Templet.Tasks

open Runs

/-- `Tool_LoopSub`. -/
def toolLoopSub (last next : UInt32) : UInt32 :=
  if next ≥ last then next - last else 0xFFFFFFFF - last + next + 1

theorem toolLoopSub_eq (last next : UInt32) : toolLoopSub last next = next - last := by
  unfold toolLoopSub
  split
  · rfl
  · apply UInt32.toNat_inj.mp
    simp only [UInt32.toNat_add, UInt32.toNat_sub]
    have := last.toNat_lt
    have := next.toNat_lt
    simp
    omega

/-! ### The system -/

/-- Where a loop stands. -/
inductive Pc where
  /-- Before `nextOSTime=OSTime`. -/
  | remember
  /-- Before the second read of `OSTime`, an argument of `Module_Process`. -/
  | process
  /-- Before `lastOSTime=nextOSTime`. -/
  | update
deriving DecidableEq, Repr

/-- The variables of a loop.  `periods` is the history of its calls of `Module_Process`. -/
structure TaskLoop where
  pc : Pc
  lastOSTime : UInt32
  nextOSTime : UInt32
  periods : List UInt16

/-- The next step of a loop, `OSTime` being the tick counter. -/
def TaskLoop.step (OSTime : UInt32) (l : TaskLoop) : TaskLoop :=
  match l.pc with
  | .remember => { l with nextOSTime := OSTime, pc := .process }
  | .process => { l with
      periods := l.periods ++ [(toolLoopSub l.lastOSTime OSTime).toUInt16]
      pc := .update }
  | .update => { l with lastOSTime := l.nextOSTime, pc := .remember }

/-- The rest of an iteration, undisturbed. -/
def TaskLoop.finish (OSTime : UInt32) (l : TaskLoop) : TaskLoop :=
  match l.pc with
  | .remember => l
  | .process => (l.step OSTime).step OSTime
  | .update => l.step OSTime

/-- The periods add up to the tick that the loop has accounted up to. -/
def TaskLoop.Accounted (l : TaskLoop) : Prop :=
  (l.periods.map UInt16.toUInt32).sum = l.lastOSTime

/-- The tick counter and the loops of `TaskStart`, `TaskOne` and `TaskTwo`.  `since i` is the
history of the ticks since loop `i` last passed its first read. -/
structure Ticks where
  OSTime : UInt32
  loop : Fin TASK_NUM → TaskLoop
  since : Fin TASK_NUM → ℕ

inductive Event where
  /-- `OSTimeTick`. -/
  | tick
  /-- The next step of a loop. -/
  | step (i : Fin TASK_NUM)

def Ticks.step (s : Ticks) : Event → Option Ticks
  | .tick => some { s with OSTime := s.OSTime + 1, since := fun i => s.since i + 1 }
  | .step i => some { s with
      loop := Function.update s.loop i ((s.loop i).step s.OSTime)
      since := if (s.loop i).pc = .remember then Function.update s.since i 0 else s.since }

/-- The system after `OSInit`, no loop having begun. -/
def start : Ticks := ⟨0, fun _ => ⟨.remember, 0, 0, []⟩, fun _ => 0⟩

/-- Loop `i` has begun its first iteration. -/
def TaskLoop.Begun (l : TaskLoop) : Prop := l.pc ≠ .remember ∨ l.periods ≠ []

instance (l : TaskLoop) : Decidable l.Begun := inferInstanceAs (Decidable (_ ∨ _))

/-- At most 65535 ticks between consecutive iterations of loop `i`. -/
def Timely (i : Fin TASK_NUM) (s : Ticks) : Event → Prop
  | .tick => (s.loop i).Begun → s.since i < 65535
  | .step _ => True

/-- No tick comes between the two reads of loop `i`, and its first iteration starts within
65535 ticks. -/
def Undisturbed (i : Fin TASK_NUM) (s : Ticks) : Event → Prop
  | .tick => (s.loop i).pc ≠ .process
  | .step j => j = i → ¬ (s.loop i).Begun → s.OSTime < 65536

/-! ### Periods -/

open scoped UInt32.CommRing

/-- A period that fits in 16 bits is passed on unchanged. -/
theorem period_exact {last now : UInt32} (h : (now - last).toNat < 65536) :
    (toolLoopSub last now).toUInt16.toUInt32 = now - last := by
  rw [toolLoopSub_eq]
  apply UInt32.toNat_inj.mp
  simp only [UInt16.toNat_toUInt32, UInt32.toNat_toUInt16]
  exact Nat.mod_eq_of_lt h

/-- A longer one is not. -/
theorem period_cut {last now : UInt32} (h : 65536 ≤ (now - last).toNat) :
    (toolLoopSub last now).toUInt16.toUInt32 ≠ now - last := by
  rw [toolLoopSub_eq]
  intro e
  have := UInt32.toNat_inj.mpr e
  simp only [UInt16.toNat_toUInt32, UInt32.toNat_toUInt16] at this
  omega

theorem total_append (periods : List UInt16) (p : UInt16) :
    ((periods ++ [p]).map UInt16.toUInt32).sum =
      (periods.map UInt16.toUInt32).sum + p.toUInt32 := by
  rw [List.map_append, List.sum_append, List.map_singleton, List.sum_singleton]

/-- The rest of an iteration in which the second read of `OSTime` gives `now` accounts for
its ticks if the period reported is the difference of the two first reads. -/
theorem finish_accounted_iff {l : TaskLoop} (hpc : l.pc = .process) (h : l.Accounted)
    (now : UInt32) : (l.finish now).Accounted ↔
      (toolLoopSub l.lastOSTime now).toUInt16.toUInt32 = l.nextOSTime - l.lastOSTime := by
  unfold TaskLoop.Accounted at h
  simp only [TaskLoop.finish, TaskLoop.step, hpc, TaskLoop.Accounted, total_append, h]
  rw [eq_sub_iff_add_eq, add_comm]

/-! ### One step -/

/-- Loop `i` has accounted for its ticks, or is about to. -/
def Inv (i : Fin TASK_NUM) (s : Ticks) : Prop :=
  match (s.loop i).pc with
  | .remember => (s.loop i).Accounted ∧ (¬ (s.loop i).Begun → (s.loop i).lastOSTime = 0) ∧
      ((s.loop i).Begun → s.since i < 65536 ∧
        s.OSTime = (s.loop i).lastOSTime + UInt32.ofNat (s.since i))
  | .process => (s.loop i).Accounted ∧ s.since i = 0 ∧ s.OSTime = (s.loop i).nextOSTime ∧
      (s.OSTime - (s.loop i).lastOSTime).toNat < 65536
  | .update => ((s.loop i).periods.map UInt16.toUInt32).sum = (s.loop i).nextOSTime ∧
      (s.loop i).periods ≠ [] ∧ s.since i < 65536 ∧
      s.OSTime = (s.loop i).nextOSTime + UInt32.ofNat (s.since i)

variable {i : Fin TASK_NUM} {s s' : Ticks}

theorem Inv.accounted (h : Inv i s) : ((s.loop i).finish s.OSTime).Accounted := by
  unfold Inv at h
  cases hpc : (s.loop i).pc with
  | remember =>
      rw [hpc] at h
      simp only [TaskLoop.finish, hpc]
      exact h.1
  | process =>
      rw [hpc] at h
      obtain ⟨hacc, _, hnow, hlt⟩ := h
      rw [finish_accounted_iff hpc hacc, period_exact hlt, hnow]
  | update =>
      rw [hpc] at h
      simp only [TaskLoop.finish, TaskLoop.step, hpc, TaskLoop.Accounted]
      exact h.1

theorem Inv.tick (h : Inv i s) (ht : Timely i s .tick) (hu : Undisturbed i s .tick) :
    Inv i { s with OSTime := s.OSTime + 1, since := fun i => s.since i + 1 } := by
  unfold Inv at h ⊢
  cases hpc : (s.loop i).pc with
  | remember =>
      rw [hpc] at h
      obtain ⟨hacc, hzero, hnow⟩ := h
      refine ⟨hacc, hzero, fun hb => ⟨Nat.succ_lt_succ (ht hb), ?_⟩⟩
      rw [(hnow hb).2, UInt32.ofNat_add, add_assoc]
      rfl
  | process => exact absurd hpc hu
  | update =>
      rw [hpc] at h
      obtain ⟨hsum, hne, _, hnow⟩ := h
      refine ⟨hsum, hne, Nat.succ_lt_succ (ht (Or.inl (by rw [hpc]; decide))), ?_⟩
      rw [hnow, UInt32.ofNat_add, add_assoc]
      rfl

theorem Inv.step (h : Inv i s) (hu : Undisturbed i s (.step i))
    (hs : s.step (.step i) = some s') : Inv i s' := by
  simp only [Ticks.step, Option.some.injEq] at hs
  subst hs
  unfold Inv at h ⊢
  cases hpc : (s.loop i).pc with
  | remember =>
      rw [hpc] at h
      obtain ⟨hacc, hzero, hnow⟩ := h
      simp only [Function.update_self, TaskLoop.step, hpc, if_true]
      refine ⟨hacc, trivial, trivial, ?_⟩
      by_cases hb : (s.loop i).Begun
      · obtain ⟨hlt, he⟩ := hnow hb
        rw [he, add_sub_cancel_left, UInt32.toNat_ofNat']
        omega
      · rw [hzero hb, sub_zero]
        exact hu rfl hb
  | process =>
      rw [hpc] at h
      obtain ⟨hacc, hsince, hnow, hlt⟩ := h
      simp only [Function.update_self, TaskLoop.step, hpc]
      refine ⟨?_, by simp, ?_, ?_⟩
      · rw [total_append, hacc, period_exact hlt, hnow, add_sub_cancel]
      · simp [hsince]
      · simp [hsince, hnow]
  | update =>
      rw [hpc] at h
      obtain ⟨hsum, hne, hlt, hnow⟩ := h
      simp only [Function.update_self, TaskLoop.step, hpc]
      refine ⟨hsum, fun hb => absurd (Or.inr hne) hb, fun _ => ⟨?_, ?_⟩⟩
      · simpa using hlt
      · simpa using hnow

theorem Inv.other (h : Inv i s) {j : Fin TASK_NUM} (hj : j ≠ i)
    (hs : s.step (.step j) = some s') : Inv i s' := by
  simp only [Ticks.step, Option.some.injEq] at hs
  subst hs
  have hsince : (if (s.loop j).pc = .remember then Function.update s.since j 0
      else s.since) i = s.since i := by
    split
    · exact Function.update_of_ne hj.symm _ _
    · rfl
  unfold Inv at h ⊢
  simp only [Function.update_of_ne hj.symm, hsince]
  exact h

theorem inv_step {e : Event} (h : Inv i s) (hc : Timely i s e ∧ Undisturbed i s e)
    (hs : s.step e = some s') : Inv i s' := by
  cases e with
  | tick =>
      cases hs
      exact h.tick hc.1 hc.2
  | step j =>
      by_cases hj : j = i
      · subst hj
        exact h.step hc.2 hs
      · exact h.other hj hs

/-! ### The two ways to lose the accounting -/

/-- A tick between the two reads is reported twice. -/
theorem tick_between_reads (h : Inv i s) (hpc : (s.loop i).pc = .process) :
    ¬ ((s.loop i).finish (s.OSTime + 1)).Accounted := by
  unfold Inv at h
  rw [hpc] at h
  obtain ⟨hacc, _, hnow, hlt⟩ := h
  rw [finish_accounted_iff hpc hacc, ← hnow, toolLoopSub_eq]
  intro e
  have := UInt32.toNat_inj.mpr e
  rw [add_sub_right_comm] at this
  simp only [UInt16.toNat_toUInt32, UInt32.toNat_toUInt16, UInt32.toNat_add] at this
  have h1 : (1 : UInt32).toNat = 1 := rfl
  omega

/-- A first iteration after 65535 ticks reports a truncated period. -/
theorem late_first_iteration (h : Inv i s) (hb : ¬ (s.loop i).Begun) (hlate : 65536 ≤ s.OSTime) :
    ¬ (((s.loop i).step s.OSTime).finish s.OSTime).Accounted := by
  have hpc : (s.loop i).pc = .remember := by
    by_contra hn
    exact hb (Or.inl hn)
  unfold Inv at h
  rw [hpc] at h
  have hl := h.2.1 hb
  have hacc : ((s.loop i).step s.OSTime).Accounted := by
    simp only [TaskLoop.Accounted, TaskLoop.step, hpc]
    exact h.1
  rw [finish_accounted_iff (by simp [TaskLoop.step, hpc]) hacc]
  simp only [TaskLoop.step, hpc]
  refine period_cut ?_
  rw [hl, sub_zero]
  exact hlate

/-! ### Runs -/

theorem inv_start (i : Fin TASK_NUM) : Inv i start :=
  ⟨rfl, fun _ => rfl, fun hb => hb.elim (absurd rfl) (absurd rfl)⟩

/-- Over every run in which the iterations of loop `i` follow each other within 65535 ticks,
the periods passed to `Module_Process` add up to `lastOSTime` after every iteration exactly
if no tick falls between the two reads of an iteration and the first one starts in time. -/
theorem accounted_iff_undisturbed (i : Fin TASK_NUM) (es : List Event)
    (ht : Along Ticks.step (Timely i) start es) :
    (∀ es₁ s, es₁ <+: es → exec Ticks.step start es₁ = some s →
        ((s.loop i).finish s.OSTime).Accounted) ↔
      Along Ticks.step (Undisturbed i) start es := by
  refine along_iff (fun _ _ _ hI ht hu hs => inv_step hI ⟨ht, hu⟩ hs)
    (fun _ hI => hI.accounted) (fun t e hI _ hend => ?_) (inv_start i) ht
  cases e with
  | tick => exact fun hpc => tick_between_reads hI hpc (hend _ rfl)
  | step j =>
      rintro rfl hb
      by_contra hlate
      refine late_first_iteration hI hb (UInt32.not_lt.mp hlate) ?_
      have hlast := hend _ rfl
      simpa [Ticks.step] using hlast

/-- Each module of the task then receives periods that add up to the same tick. -/
theorem module_accounted {l : TaskLoop} (h : l.Accounted) {p : Process}
    (hp : p ∈ processes i) :
    ((receivedBy p (l.periods.flatMap (moduleProcess i))).map UInt16.toUInt32).sum =
      l.lastOSTime := by
  rw [receivedBy_flatMap hp]
  exact h

instance (i : Fin TASK_NUM) (s : Ticks) : ∀ e, Decidable (Timely i s e)
  | .tick => inferInstanceAs (Decidable (_ → _))
  | .step _ => isTrue trivial

instance (i : Fin TASK_NUM) (s : Ticks) : ∀ e, Decidable (Undisturbed i s e)
  | .tick => inferInstanceAs (Decidable (_ ≠ _))
  | .step _ => inferInstanceAs (Decidable (_ → _ → _))

/-- Ticks before and after the two reads. -/
theorem accounted_one_iteration : ∃ s, exec Ticks.step start
      [.tick, .step 0, .step 0, .tick, .step 0] = some s ∧
    ((s.loop 0).finish s.OSTime).Accounted :=
  ⟨_, rfl, (accounted_iff_undisturbed 0 [.tick, .step 0, .step 0, .tick, .step 0]
    (by decide)).mpr (by decide) _ _ List.prefix_rfl rfl⟩

/-- A tick between the two reads of the first iteration: one tick, reported as one although
the loop has accounted up to zero. -/
theorem disturbed_iteration_unaccounted :
    ¬ ∀ (i : Fin TASK_NUM) (es : List Event) (s : Ticks),
      Along Ticks.step (Timely i) start es → exec Ticks.step start es = some s →
        (s.loop i).pc = .remember → (s.loop i).Accounted := by
  intro h
  have := h 0 [.step 0, .tick, .step 0, .step 0] _ (by decide) rfl rfl
  exact absurd this (by unfold TaskLoop.Accounted; decide)

end Stm32Templet.Tasks
