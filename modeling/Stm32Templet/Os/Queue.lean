import Stm32Templet.Lib.Circular

/-! # Message queues

`UCOSII/CORE/os_q.c`: a queue is a circular array of message pointers.  `OSQIn` and `OSQOut`
are offsets from `OSQStart`.  The functions run in critical sections, so each is one step; no
task waits on a queue here, so a post always goes to the array. -/

namespace Stm32Templet.Os

open Circular

def OS_ERR_Q_FULL : ℕ := 30

def OS_ERR_Q_EMPTY : ℕ := 31

/-- `OS_Q`, the queue control block, with the array it points to. -/
structure OsQ where
  OSQStart : ℕ → ℕ
  OSQIn : ℕ
  OSQOut : ℕ
  OSQSize : ℕ
  OSQEntries : ℕ

/-- `OSQCreate`. -/
def osQCreate (start : ℕ → ℕ) (size : ℕ) : OsQ where
  OSQStart := start
  OSQIn := 0
  OSQOut := 0
  OSQSize := size
  OSQEntries := 0

/-- `OSQPost`. -/
def osQPost (pq : OsQ) (pmsg : ℕ) : ℕ × OsQ :=
  if pq.OSQEntries ≥ pq.OSQSize then (OS_ERR_Q_FULL, pq)
  else
    (0, { pq with
      OSQStart := Function.update pq.OSQStart pq.OSQIn pmsg
      OSQIn := if pq.OSQIn + 1 = pq.OSQSize then 0 else pq.OSQIn + 1
      OSQEntries := pq.OSQEntries + 1 })

/-- `OSQAccept`: the message and the error code. -/
def osQAccept (pq : OsQ) : (ℕ × ℕ) × OsQ :=
  if pq.OSQEntries > 0 then
    ((pq.OSQStart pq.OSQOut, 0), { pq with
      OSQOut := if pq.OSQOut + 1 = pq.OSQSize then 0 else pq.OSQOut + 1
      OSQEntries := pq.OSQEntries - 1 })
  else ((0, OS_ERR_Q_EMPTY), pq)

/-- The messages in the queue, the oldest first. -/
def OsQ.messages (pq : OsQ) : List ℕ :=
  contents pq.OSQStart pq.OSQSize pq.OSQOut pq.OSQEntries

/-- The queue control block is consistent and its messages are `l`. -/
structure OsQ.Queue (pq : OsQ) (l : List ℕ) : Prop where
  out_lt : pq.OSQOut < pq.OSQSize
  entries : pq.OSQEntries = l.length
  in_eq : pq.OSQIn = (pq.OSQOut + l.length) % pq.OSQSize
  le : l.length ≤ pq.OSQSize
  holds : Holds pq.OSQStart pq.OSQSize pq.OSQOut l

variable {pq : OsQ} {l : List ℕ} {a : ℕ}

theorem OsQ.Queue.messages_eq (h : pq.Queue l) : pq.messages = l := by
  rw [messages, h.entries]
  exact holds_iff_contents.mp h.holds

theorem queue_osQCreate {size : ℕ} (h : 0 < size) (start : ℕ → ℕ) :
    (osQCreate start size).Queue [] :=
  ⟨h, rfl, (Nat.zero_mod size).symm, Nat.zero_le _, .nil⟩

/-- The wrap-around test of the source is the one of `next`. -/
theorem wrap_eq_next {i n : ℕ} (h : i < n) : (if i + 1 = n then 0 else i + 1) = next n i := by
  unfold next
  split <;> split <;> omega

theorem OsQ.Queue.post (h : pq.Queue l) (hroom : l.length < pq.OSQSize) (a : ℕ) :
    ∃ pq', osQPost pq a = (0, pq') ∧ pq'.Queue (l ++ [a]) ∧ pq'.OSQSize = pq.OSQSize := by
  have hin : pq.OSQIn < pq.OSQSize := h.in_eq ▸ Nat.mod_lt _ (by omega)
  unfold osQPost
  rw [if_neg (by rw [h.entries]; omega), wrap_eq_next hin]
  refine ⟨_, rfl, ⟨h.out_lt, ?_, ?_, ?_, ?_⟩, rfl⟩
  · simp only [h.entries, List.length_append, List.length_singleton]
  · simp only [h.in_eq, List.length_append, List.length_singleton]
    exact next_add_mod (by omega)
  · simp only [List.length_append, List.length_singleton]
    omega
  · simp only [h.in_eq]
    exact h.holds.push hroom

theorem OsQ.Queue.post_full (h : pq.Queue l) (hfull : l.length = pq.OSQSize) (a : ℕ) :
    osQPost pq a = (OS_ERR_Q_FULL, pq) := by
  unfold osQPost
  rw [if_pos (by rw [h.entries]; omega)]

theorem OsQ.Queue.accept_nil (h : pq.Queue []) : osQAccept pq = ((0, OS_ERR_Q_EMPTY), pq) := by
  unfold osQAccept
  rw [if_neg]
  rw [h.entries]
  exact lt_irrefl 0

theorem OsQ.Queue.accept_cons (h : pq.Queue (a :: l)) :
    ∃ pq', osQAccept pq = ((a, 0), pq') ∧ pq'.Queue l ∧ pq'.OSQSize = pq.OSQSize := by
  have hlen := h.entries
  have hle := h.le
  rw [List.length_cons] at hlen hle
  have hhead := h.holds.head
  rw [Nat.mod_eq_of_lt h.out_lt] at hhead
  unfold osQAccept
  rw [if_pos (by omega), hhead, wrap_eq_next h.out_lt, next_eq_mod h.out_lt]
  refine ⟨_, rfl, ⟨Nat.mod_lt _ (by omega), ?_, ?_, by simp only; omega, h.holds.tail⟩, rfl⟩
  · simp only
    omega
  · simp only [h.in_eq, Nat.mod_add_mod, List.length_cons]
    congr 1
    omega

end Stm32Templet.Os
