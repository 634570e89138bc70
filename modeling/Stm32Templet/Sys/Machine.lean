import Stm32Templet.Lib.Runs
import Stm32Templet.Sys.Calls

/-! # Tasks that preempt each other

Any number of tasks call the functions of `SYSTEM/src/sys.c`.  An event begins a call, makes
its next access, ends it, or writes a byte of memory; the scheduler may choose any task for
the next event, so a call can be preempted between any two of its accesses.

The tasks use the functions as the task loops do: a message is freed by the task that has
received it, once, and its head stays as it is (with it the address of a payload block, which
`MSG_Free` needs); a block from `MEM_Get` is put back by the task that has it; and outside the
calls a task writes to its own blocks and to memory that is not in the pools.  Nothing is
assumed of the bytes that a message is sent from: they may change at any time, also while the
call is running. -/

namespace Stm32Templet.Sys

open Memory Os Tasks Atomic

/-! ### State -/

/-- A message that was received and is not freed yet. -/
structure Held where
  pMessage : ℕ
  /-- It is message number `index` that the task has received from the queue `task`. -/
  task : Fin TASK_NUM
  index : ℕ
  /-- Its contents when `MSG_Receive` returned. -/
  msg : Msg
  /-- Whether the task has written to it. -/
  touched : Bool

/-- A call that has not returned. -/
structure Running where
  call : Call
  prog : Prog sig (ℕ × ℕ)
  src : Option (List UInt8)
  seen : Seen

structure TaskState where
  held : List Held
  /-- The blocks that `MEM_Get` has returned. -/
  blks : List ℕ
  /-- The calls of `MSG_Send` that have returned `OS_ERR_NONE`. -/
  sent : List Send
  /-- The messages that `MSG_Receive` has returned, for each queue. -/
  received : Fin TASK_NUM → List Msg
  run : Option Running

structure Machine (Tid : Type) where
  shared : Shared Tid
  task : Tid → TaskState

/-- The blocks of a task, apart from those of the call that is running. -/
def TaskState.blocks (m : Mem) (ts : TaskState) : List ℕ :=
  ts.held.flatMap (fun h => msgBlocks m h.pMessage) ++ ts.blks

/-! ### Events -/

inductive Event (Tid : Type) where
  | call (x : Tid) (c : Call)
  | act (x : Tid)
  | ret (x : Tid)
  | write (x : Tid) (a : ℕ) (b : UInt8)

instance (L : Layout) (p : Partition) (b : ℕ) : Decidable (L.Block p b) :=
  inferInstanceAs (Decidable (∃ i < p.num, b = L.base p + i * p.size))

instance (L : Layout) (b a : ℕ) : Decidable (L.InBlock b a) :=
  decidable_of_iff
    ((L.Block .Mem b ∧ b ≤ a ∧ a < b + MEM_SIZE) ∨
      (L.Block .MemBig b ∧ b ≤ a ∧ a < b + MEM_BIG_SIZE))
    ⟨fun h => h.elim (fun h => ⟨.Mem, h⟩) fun h => ⟨.MemBig, h⟩, fun ⟨p, h⟩ => match p with
      | .Mem => Or.inl h
      | .MemBig => Or.inr h⟩

/-- What a task may call. -/
def TaskState.May (ts : TaskState) : Call → Prop
  | .free pMessage => ∃ h ∈ ts.held, h.pMessage = pMessage
  | .put pblk => pblk ∈ ts.blks
  | _ => True

instance (ts : TaskState) : (c : Call) → Decidable (ts.May c)
  | .send _ => isTrue trivial
  | .receive _ => isTrue trivial
  | .free _ => inferInstanceAs (Decidable (∃ _ ∈ _, _))
  | .get _ => isTrue trivial
  | .put _ => inferInstanceAs (Decidable (_ ∈ _))

/-- The part of a message that its receiver leaves as it is: the head, and the address of the
payload block where there is one. -/
def Fixed (m : Mem) (pMessage a : ℕ) : Prop :=
  pMessage ≤ a ∧ a < pMessage + if Split (headLen m pMessage) then HEAD_SIZE + 4 else HEAD_SIZE

instance (m : Mem) (pMessage a : ℕ) : Decidable (Fixed m pMessage a) :=
  inferInstanceAs (Decidable (_ ∧ _))

/-- Where a task may write. -/
def TaskState.MayWrite (L : Layout) (m : Mem) (ts : TaskState) (a : ℕ) : Prop :=
  (L.Outside a ∨ ∃ b ∈ ts.blocks m, L.InBlock b a) ∧ ∀ h ∈ ts.held, ¬ Fixed m h.pMessage a

instance (L : Layout) (m : Mem) (ts : TaskState) (a : ℕ) : Decidable (ts.MayWrite L m a) :=
  inferInstanceAs (Decidable (_ ∧ _))

/-- What stands at `pData` when a call begins. -/
def Call.source (m : Mem) : Call → Option (List UInt8)
  | .send d => some (bytes m d.pData d.len.toNat)
  | _ => none

/-- A call begins.  What it is to free or put back belongs to it from now on. -/
def TaskState.call (L : Layout) (m : Mem) (ts : TaskState) (c : Call) : TaskState :=
  { ts with
    held := match c with
      | .free pMessage => ts.held.eraseP fun h => h.pMessage = pMessage
      | _ => ts.held
    blks := match c with
      | .put pblk => ts.blks.erase pblk
      | _ => ts.blks
    run := some ⟨c, c.prog L, c.source m, Seen.start⟩ }

/-- A call returns `r`. -/
def TaskState.ret (m : Mem) (ts : TaskState) (c : Call) (r : ℕ × ℕ) : TaskState :=
  match c with
  | .send d => { ts with sent := if r.2 = 0 then ts.sent ++ [d] else ts.sent, run := none }
  | .receive t =>
      if r.1 = 0 then { ts with run := none }
      else
        { ts with
          held := ⟨r.1, t, (ts.received t).length, decode m r.1, false⟩ :: ts.held
          received := Function.update ts.received t (ts.received t ++ [decode m r.1])
          run := none }
  | .free _ => { ts with run := none }
  | .get _ =>
      if r.1 = 0 then { ts with run := none } else { ts with blks := r.1 :: ts.blks, run := none }
  | .put _ => { ts with run := none }

theorem TaskState.ret_run (m : Mem) (ts : TaskState) (c : Call) (r : ℕ × ℕ) :
    (ts.ret m c r).run = none := by
  cases c with
  | receive t => exact (apply_ite run _ _ _).trans (ite_self _)
  | get size => exact (apply_ite run _ _ _).trans (ite_self _)
  | _ => rfl

/-- A byte is written at `a`. -/
def Held.write (L : Layout) (m : Mem) (a : ℕ) (h : Held) : Held :=
  { h with touched := h.touched || decide (∃ b ∈ msgBlocks m h.pMessage, L.InBlock b a) }

variable {Tid : Type} [DecidableEq Tid]

/-- The state in which `x` has got to `ts` and the shared state is `shared`. -/
def Machine.set (s : Machine Tid) (shared : Shared Tid) (x : Tid) (ts : TaskState) :
    Machine Tid :=
  ⟨shared, Function.update s.task x ts⟩

@[simp] theorem Machine.set_shared (s : Machine Tid) (shared : Shared Tid) (x : Tid)
    (ts : TaskState) : (s.set shared x ts).shared = shared := rfl

@[simp] theorem Machine.set_task_self (s : Machine Tid) (shared : Shared Tid) (x : Tid)
    (ts : TaskState) : (s.set shared x ts).task x = ts :=
  Function.update_self (β := fun _ => TaskState) x ts s.task

theorem Machine.set_task_of_ne (s : Machine Tid) (shared : Shared Tid) {x y : Tid} (h : y ≠ x)
    (ts : TaskState) : (s.set shared x ts).task y = s.task y :=
  Function.update_of_ne (β := fun _ => TaskState) h ts s.task

/-- One event, without the record of the sources. -/
def Machine.next (L : Layout) (s : Machine Tid) : Event Tid → Option (Machine Tid)
  | .call x c =>
      if (s.task x).run.isNone ∧ (s.task x).May c then
        some (s.set s.shared x ((s.task x).call L s.shared.kernel.mem c))
      else none
  | .act x =>
      match (s.task x).run with
      | some ⟨c, .act a k, src, seen⟩ =>
          let r := turn x c src a (s.shared, seen)
          some (s.set r.2.1 x { s.task x with run := some ⟨c, k r.1, src, r.2.2⟩ })
      | _ => none
  | .ret x =>
      match (s.task x).run with
      | some ⟨c, .ret r, _, _⟩ =>
          some (s.set s.shared x ((s.task x).ret s.shared.kernel.mem c r))
      | _ => none
  | .write x a b =>
      if (s.task x).MayWrite L s.shared.kernel.mem a then
        some (s.set
          { s.shared with kernel.mem := Function.update s.shared.kernel.mem a b } x
          { s.task x with held := (s.task x).held.map (.write L s.shared.kernel.mem a) })
      else none

/-- The record of the source of a call is kept as long as the bytes are still there. -/
def Running.watch (m : Mem) (r : Running) : Running :=
  { r with src := r.src.filter fun l => r.call.source m = some l }

def TaskState.watch (m : Mem) (ts : TaskState) : TaskState :=
  { ts with run := ts.run.map (.watch m) }

def Machine.watch (s : Machine Tid) : Machine Tid :=
  { s with task := fun x => (s.task x).watch s.shared.kernel.mem }

/-- One event. -/
def Machine.step (L : Layout) (s : Machine Tid) (e : Event Tid) : Option (Machine Tid) :=
  (s.next L e).map Machine.watch

/-- After `SYS_Start`, on any contents of memory. -/
def Machine.start (L : Layout) (mem : Mem) (OSQ_MSG : Fin TASK_NUM → ℕ → ℕ) : Machine Tid where
  shared := ⟨sysStart L mem OSQ_MSG, fun _ => [], [], fun _ => []⟩
  task _ := ⟨[], [], [], fun _ => [], none⟩

/-- The states that the events lead to. -/
def Reachable (L : Layout) (s : Machine Tid) : Prop :=
  ∃ mem OSQ_MSG es, Runs.exec (Machine.step L) (Machine.start L mem OSQ_MSG) es = some s

/-! ### What an event does -/

variable {L : Layout} {s s' : Machine Tid} {x : Tid}

theorem next_call {c : Call} (h : s.next L (.call x c) = some s') :
    (s.task x).run = none ∧ (s.task x).May c ∧
      s' = s.set s.shared x ((s.task x).call L s.shared.kernel.mem c) := by
  simp only [Machine.next, Option.ite_none_right_eq_some, Option.some.injEq,
    Option.isNone_iff_eq_none] at h
  exact ⟨h.1.1, h.1.2, h.2.symm⟩

theorem next_act (h : s.next L (.act x) = some s') :
    ∃ c a k src seen, (s.task x).run = some ⟨c, .act a k, src, seen⟩ ∧
      s' = s.set (turn x c src a (s.shared, seen)).2.1 x { s.task x with
        run := some ⟨c, k (turn x c src a (s.shared, seen)).1, src,
          (turn x c src a (s.shared, seen)).2.2⟩ } := by
  simp only [Machine.next] at h
  split at h
  · rename_i c a k src seen hrun
    exact ⟨c, a, k, src, seen, hrun, (Option.some.inj h).symm⟩
  · cases h

theorem next_ret (h : s.next L (.ret x) = some s') :
    ∃ c r src seen, (s.task x).run = some ⟨c, .ret r, src, seen⟩ ∧
      s' = s.set s.shared x ((s.task x).ret s.shared.kernel.mem c r) := by
  simp only [Machine.next] at h
  split at h
  · rename_i c r src seen hrun
    exact ⟨c, r, src, seen, hrun, (Option.some.inj h).symm⟩
  · cases h

theorem next_write {a : ℕ} {b : UInt8} (h : s.next L (.write x a b) = some s') :
    (s.task x).MayWrite L s.shared.kernel.mem a ∧
      s' = s.set { s.shared with kernel.mem := Function.update s.shared.kernel.mem a b } x
        { s.task x with held := (s.task x).held.map (.write L s.shared.kernel.mem a) } := by
  simp only [Machine.next, Option.ite_none_right_eq_some, Option.some.injEq] at h
  exact ⟨h.1, h.2.symm⟩

theorem step_eq {e : Event Tid} (h : s.step L e = some s') :
    ∃ t, s.next L e = some t ∧ s' = t.watch := by
  obtain ⟨t, ht, rfl⟩ := Option.map_eq_some_iff.mp h
  exact ⟨t, ht, rfl⟩

theorem step_call {c : Call} (h : s.step L (.call x c) = some s') :
    (s.task x).run = none ∧ (s.task x).May c ∧ s'.shared = s.shared ∧
      s'.task x = ((s.task x).call L s.shared.kernel.mem c).watch s.shared.kernel.mem := by
  obtain ⟨t, ht, rfl⟩ := step_eq h
  obtain ⟨hidle, hmay, rfl⟩ := next_call ht
  exact ⟨hidle, hmay, rfl, congrArg (TaskState.watch _) (Machine.set_task_self s _ x _)⟩

theorem step_act (h : s.step L (.act x) = some s') :
    ∃ c a k src seen, (s.task x).run = some ⟨c, .act a k, src, seen⟩ ∧
      s'.shared = (turn x c src a (s.shared, seen)).2.1 ∧
      s'.task x = TaskState.watch s'.shared.kernel.mem { s.task x with
        run := some ⟨c, k (turn x c src a (s.shared, seen)).1, src,
          (turn x c src a (s.shared, seen)).2.2⟩ } := by
  obtain ⟨t, ht, rfl⟩ := step_eq h
  obtain ⟨c, a, k, src, seen, hrun, rfl⟩ := next_act ht
  exact ⟨c, a, k, src, seen, hrun, rfl,
    congrArg (TaskState.watch _) (Machine.set_task_self s _ x _)⟩

omit [DecidableEq Tid] in
theorem TaskState.watch_idle {ts : TaskState} (h : ts.run = none) (m : Mem) : ts.watch m = ts := by
  unfold watch
  rw [h, Option.map_none, ← h]

theorem step_ret (h : s.step L (.ret x) = some s') :
    ∃ c r src seen, (s.task x).run = some ⟨c, .ret r, src, seen⟩ ∧ s'.shared = s.shared ∧
      s'.task x = (s.task x).ret s.shared.kernel.mem c r := by
  obtain ⟨t, ht, rfl⟩ := step_eq h
  obtain ⟨c, r, src, seen, hrun, rfl⟩ := next_ret ht
  refine ⟨c, r, src, seen, hrun, rfl, ?_⟩
  have hwatch := TaskState.watch_idle ((s.task x).ret_run s.shared.kernel.mem c r)
  exact (congrArg (TaskState.watch _) (Machine.set_task_self s _ x _)).trans (hwatch _)

end Stm32Templet.Sys
