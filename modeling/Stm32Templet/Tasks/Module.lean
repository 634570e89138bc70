import Mathlib.Data.Fin.VecNotation
import Mathlib.Data.List.Nodup

/-! # The module table

`s_modules` of `User/src/module.c`: every module may have a function that a task loop calls
once per iteration and a function that it offers the messages it receives, one of each for
every task.  The functions are named here; what the ones with a model do is said where they
are modelled. -/

namespace Stm32Templet.Tasks

/-- Number of tasks with a loop. -/
abbrev TASK_NUM : ℕ := 3

instance : @NeZero ℕ Zero.ofOfNat0 TASK_NUM := ⟨Nat.succ_ne_zero 2⟩

/-- The number of clock ticks in a second. -/
def OS_TICKS_PER_SEC : ℕ := 1000

/-- The process functions that stand in `s_modules`. -/
inductive Process where
  | iwdgModuleProcess0
  | ledModuleProcess0
  | usartLoopModuleProcess0
  | inputModuleProcess0
  | msgTestModuleProcess1
deriving DecidableEq, Repr

/-- The message handlers that stand in `s_modules`. -/
inductive Handle where
  | usartLoopModuleHandle0
  | msgTestModuleHandle0
deriving DecidableEq, Repr

/-- `Module_sut`, without the two initialisation functions. -/
structure ModuleSut where
  process : Fin TASK_NUM → Option Process
  handle : Fin TASK_NUM → Option Handle

def sModules : List ModuleSut :=
  [⟨![some .iwdgModuleProcess0, none, none], ![none, none, none]⟩,
   ⟨![none, none, none], ![none, none, none]⟩,
   ⟨![some .ledModuleProcess0, none, none], ![none, none, none]⟩,
   ⟨![some .usartLoopModuleProcess0, none, none], ![some .usartLoopModuleHandle0, none, none]⟩,
   ⟨![some .inputModuleProcess0, none, none], ![none, none, none]⟩,
   ⟨![none, some .msgTestModuleProcess1, none], ![some .msgTestModuleHandle0, none, none]⟩]

/-- The functions that `Module_Process` calls, in order. -/
def processes (processNum : Fin TASK_NUM) : List Process :=
  sModules.filterMap fun m => m.process processNum

/-- `Module_Process`: the calls it makes. -/
def moduleProcess (processNum : Fin TASK_NUM) (period : UInt16) : List (Process × UInt16) :=
  (processes processNum).map fun p => (p, period)

/-- The handlers that `Module_MsgHandle` offers a message to, in order, until one of them
returns nonzero. -/
def moduleHandles (processNum : Fin TASK_NUM) : List Handle :=
  sModules.filterMap fun m => m.handle processNum

/-- `Module_MsgHandle`, `handle` being what a handler does with the message in hand: its new
state and whether it returns nonzero. -/
def moduleMsgHandle {σ : Type} (handle : Handle → σ → σ × Bool) (processNum : Fin TASK_NUM)
    (s : σ) : σ :=
  go (moduleHandles processNum) s
where
  go : List Handle → σ → σ
    | [], s => s
    | h :: hs, s => if (handle h s).2 then (handle h s).1 else go hs (handle h s).1

/-! ### What the modules receive -/

/-- The arguments that the function `p` is called with. -/
def receivedBy (p : Process) (calls : List (Process × UInt16)) : List UInt16 :=
  (calls.filter fun c => c.1 = p).map Prod.snd

theorem processes_nodup : ∀ processNum, (processes processNum).Nodup := by decide

/-- A module in the table of a task is called once, with the period. -/
theorem receivedBy_moduleProcess {processNum : Fin TASK_NUM} {p : Process}
    (h : p ∈ processes processNum) (period : UInt16) :
    receivedBy p (moduleProcess processNum period) = [period] := by
  have hcount := List.count_eq_one_of_mem (processes_nodup processNum) h
  rw [receivedBy, moduleProcess, List.filter_map, List.map_map]
  change ((processes processNum).filter fun q => q = p).map (fun _ => period) = _
  rw [List.map_const', ← List.countP_eq_length_filter]
  rw [List.count, show (fun q => q == p) = fun q => decide (q = p) from rfl] at hcount
  rw [hcount, List.replicate_one]

/-- Over a sequence of calls of `Module_Process` it receives every period. -/
theorem receivedBy_flatMap {processNum : Fin TASK_NUM} {p : Process}
    (h : p ∈ processes processNum) : ∀ periods : List UInt16,
    receivedBy p (periods.flatMap (moduleProcess processNum)) = periods
  | [] => rfl
  | period :: periods => by
      have ih := receivedBy_flatMap h periods
      unfold receivedBy at ih ⊢
      rw [List.flatMap_cons, List.filter_append, List.map_append, ih]
      exact congrArg (· ++ periods) (receivedBy_moduleProcess h period)

end Stm32Templet.Tasks
