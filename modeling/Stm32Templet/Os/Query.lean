import Stm32Templet.Os.Mem
import Stm32Templet.Os.Queue

/-! # Queries

`OSQQuery` of `UCOSII/CORE/os_q.c` and `OSMemQuery` of `UCOSII/CORE/os_mem.c` copy the state of
a queue or a partition to a structure of the caller, `OS_Q_DATA` or `OS_MEM_DATA`.  The copy is
made in a critical section, so it is one step.  The offsets of the fields are those of a 32-bit
target. -/

namespace Stm32Templet.Os

open Memory

/-! ### Queues -/

def OS_LOWEST_PRIO : ℕ := 63

def OS_EVENT_TBL_SIZE : ℕ := OS_LOWEST_PRIO / 8 + 1

def OS_EVENT_TYPE_Q : ℕ := 2

def OS_ERR_EVENT_TYPE : ℕ := 1

/-- The part of `OS_EVENT` that `OSQQuery` reads apart from the queue: its type and the tasks
that wait on it. -/
structure OsEvent where
  OSEventType : ℕ
  OSEventGrp : ℕ
  OSEventTbl : ℕ → ℕ

/-- `sizeof(OS_Q_DATA)`: `OSMsg` at offset 0, `OSNMsgs` at 4, `OSQSize` at 6, `OSEventTbl` at 8
and `OSEventGrp` behind it, padded to a multiple of four. -/
def OS_Q_DATA_SIZE : ℕ := (8 + OS_EVENT_TBL_SIZE + 1 + 3) / 4 * 4

/-- An iteration of the loop that copies the waiting list. -/
def copyWait (pevent : OsEvent) (pdest : ℕ) (m : Mem) (i : ℕ) : Mem :=
  store m 1 (pdest + i) (pevent.OSEventTbl i)

/-- `OSQQuery`. -/
def osQQuery (pevent : OsEvent) (pq : OsQ) (p_q_data : ℕ) (m : Mem) : ℕ × Mem :=
  if pevent.OSEventType ≠ OS_EVENT_TYPE_Q then (OS_ERR_EVENT_TYPE, m)
  else
    let m := store m 1 (p_q_data + 8 + OS_EVENT_TBL_SIZE) pevent.OSEventGrp
    let m := (List.range OS_EVENT_TBL_SIZE).foldl (copyWait pevent (p_q_data + 8)) m
    let m := store m 4 p_q_data (if pq.OSQEntries > 0 then pq.OSQStart pq.OSQOut else 0)
    let m := store m 2 (p_q_data + 4) pq.OSQEntries
    (OS_ERR_NONE, store m 2 (p_q_data + 6) pq.OSQSize)

theorem fills_copyWait (pevent : OsEvent) (pdest : ℕ) : Fills pdest 1 (copyWait pevent pdest) := by
  intro m i x hx
  exact store_of_outside 1 _ _ m (by omega)

/-- Nothing but the structure is written to. -/
theorem osQQuery_outside (pevent : OsEvent) (pq : OsQ) {p_q_data x : ℕ} (m : Mem)
    (hx : x < p_q_data ∨ p_q_data + OS_Q_DATA_SIZE ≤ x) :
    (osQQuery pevent pq p_q_data m).2 x = m x := by
  have hsize : OS_EVENT_TBL_SIZE = 8 := rfl
  have hdata : OS_Q_DATA_SIZE = 20 := rfl
  rw [hdata] at hx
  unfold osQQuery
  split
  · rfl
  · simp only
    rw [store_of_outside 2 _ _ _ (by omega), store_of_outside 2 _ _ _ (by omega),
      store_of_outside 4 _ _ _ (by omega), (fills_copyWait pevent _).outside _ (by omega),
      store_of_outside 1 _ _ _ (by omega)]

/-! ### Partitions -/

/-- `sizeof(OS_MEM_DATA)`: six fields of four bytes. -/
def OS_MEM_DATA_SIZE : ℕ := 24

/-- The critical section of `OSMemQuery`.  The last field, `OSNUsed` at offset 20, is computed
behind it. -/
def osMemQuery (pmem : OsMem) (p_mem_data : ℕ) (m : Mem) : Mem :=
  let m := store m 4 p_mem_data pmem.OSMemAddr
  let m := store m 4 (p_mem_data + 4) pmem.OSMemFreeList
  let m := store m 4 (p_mem_data + 8) pmem.OSMemBlkSize
  let m := store m 4 (p_mem_data + 12) pmem.OSMemNBlks
  store m 4 (p_mem_data + 16) pmem.OSMemNFree

theorem osMemQuery_outside (pmem : OsMem) {p_mem_data x : ℕ} (m : Mem)
    (hx : x < p_mem_data ∨ p_mem_data + OS_MEM_DATA_SIZE ≤ x) :
    osMemQuery pmem p_mem_data m x = m x := by
  unfold OS_MEM_DATA_SIZE at hx
  unfold osMemQuery
  rw [store_of_outside 4 _ _ _ (by omega), store_of_outside 4 _ _ _ (by omega),
    store_of_outside 4 _ _ _ (by omega), store_of_outside 4 _ _ _ (by omega),
    store_of_outside 4 _ _ _ (by omega)]

end Stm32Templet.Os
