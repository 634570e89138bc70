import Stm32Templet.Os.Mem
import Stm32Templet.Os.Queue
import Stm32Templet.Tasks.Module

/-! # Pools and queues

The two memory partitions and the message queues that `SYS_Start` creates.  A `Layout` says
where the linker has put the two arrays; all that is used of it is that they are not at
address `0`, do not overlap and end within the address space. -/

namespace Stm32Templet.Sys

open Memory Os Tasks

/-! ### Configuration -/

def MESSAGE_NUM : ℕ := 30

def MEM_SIZE : ℕ := 32

def MEM_NUM : ℕ := 30

def MEM_BIG_SIZE : ℕ := 256

def MEM_BIG_NUM : ℕ := 16

/-- The two partitions. -/
inductive Partition where
  | Mem
  | MemBig
deriving DecidableEq, Repr

/-- The size of the blocks of a partition. -/
def Partition.size : Partition → ℕ
  | .Mem => MEM_SIZE
  | .MemBig => MEM_BIG_SIZE

/-- The number of blocks of a partition. -/
def Partition.num : Partition → ℕ
  | .Mem => MEM_NUM
  | .MemBig => MEM_BIG_NUM

/-- The addresses of `_OSMEM_Mem` and `_OSMEM_MemBig`. -/
structure Layout where
  base : Partition → ℕ
  pos : ∀ p, 0 < base p
  fits : ∀ p, base p + p.num * p.size ≤ 256 ^ 4
  apart : base .Mem + MEM_NUM * MEM_SIZE ≤ base .MemBig ∨
    base .MemBig + MEM_BIG_NUM * MEM_BIG_SIZE ≤ base .Mem

/-- The address range that `MEM_Put` tests for a partition. -/
def Layout.In (L : Layout) (p : Partition) (a : ℕ) : Prop :=
  a ≥ L.base p ∧ a < L.base p + p.num * p.size

instance (L : Layout) (p : Partition) (a : ℕ) : Decidable (L.In p a) :=
  inferInstanceAs (Decidable (_ ∧ _))

/-- The address is in neither array. -/
def Layout.Outside (L : Layout) (a : ℕ) : Prop := ¬ L.In .Mem a ∧ ¬ L.In .MemBig a

instance (L : Layout) (a : ℕ) : Decidable (L.Outside a) :=
  inferInstanceAs (Decidable (_ ∧ _))

/-- The block starts of a partition. -/
def Layout.Block (L : Layout) (p : Partition) (b : ℕ) : Prop :=
  ∃ i < p.num, b = L.base p + i * p.size

/-- The block starts of both. -/
def Layout.IsBlock (L : Layout) (b : ℕ) : Prop := ∃ p, L.Block p b

/-- The address belongs to the block that starts at `b`. -/
def Layout.InBlock (L : Layout) (b a : ℕ) : Prop := ∃ p, L.Block p b ∧ b ≤ a ∧ a < b + p.size

/-- The `n` bytes from `a` on lie in the block that starts at `b`. -/
def Layout.Within (L : Layout) (b a n : ℕ) : Prop :=
  ∃ p, L.Block p b ∧ b ≤ a ∧ a + n ≤ b + p.size

/-! ### Blocks -/

variable {L : Layout} {p q : Partition} {a b c n : ℕ}

theorem Layout.Block.isBlock (h : L.Block p b) : L.IsBlock b := ⟨p, h⟩

theorem Layout.Block.pos (h : L.Block p b) : 0 < b := by
  obtain ⟨i, _, rfl⟩ := h
  exact Nat.add_pos_left (L.pos p) _

theorem Layout.Block.within (h : L.Block p b) (ha : b ≤ a) (hn : a < b + p.size) : L.In p a := by
  obtain ⟨i, hi, rfl⟩ := h
  have hs : (i + 1) * p.size ≤ p.num * p.size := Nat.mul_le_mul_right _ hi
  rw [Nat.add_mul, Nat.one_mul] at hs
  exact ⟨by omega, by omega⟩

theorem Partition.size_pos (p : Partition) : 0 < p.size := by cases p <;> decide

theorem Partition.four_le_size (p : Partition) : 4 ≤ p.size := by cases p <;> decide

theorem Layout.Block.lt (h : L.Block p b) : b < 256 ^ 4 := by
  have := h.within le_rfl (Nat.lt_add_of_pos_right p.size_pos)
  exact this.2.trans_le (L.fits p)

theorem Layout.In.unique (h : L.In p a) (h' : L.In q a) : p = q := by
  obtain ⟨h₁, h₂⟩ := h
  obtain ⟨h₁', h₂'⟩ := h'
  have hapart := L.apart
  cases p <;> cases q <;> first | rfl | (simp only [Partition.num, Partition.size] at *; omega)

theorem Layout.Block.unique (h : L.Block p b) (h' : L.Block q c) (hb : b ≤ a)
    (hb' : a < b + p.size) (hc : c ≤ a) (hc' : a < c + q.size) : p = q ∧ b = c := by
  obtain rfl : p = q := (h.within hb hb').unique (h'.within hc hc')
  refine ⟨rfl, ?_⟩
  obtain ⟨i, _, rfl⟩ := h
  obtain ⟨j, _, rfl⟩ := h'
  have hpos := p.size_pos
  have hij : i = j := by
    by_contra hne
    rcases Nat.lt_or_gt_of_ne hne with hlt | hlt
    · have := Nat.mul_le_mul_right p.size hlt
      rw [Nat.succ_mul] at this
      omega
    · have := Nat.mul_le_mul_right p.size hlt
      rw [Nat.succ_mul] at this
      omega
  rw [hij]

theorem Layout.Block.part_unique (h : L.Block p b) (h' : L.Block q b) : p = q :=
  (h.unique h' le_rfl (Nat.lt_add_of_pos_right p.size_pos) le_rfl
    (Nat.lt_add_of_pos_right q.size_pos)).1

theorem Layout.InBlock.unique (h : L.InBlock b a) (h' : L.InBlock c a) : b = c := by
  obtain ⟨p, hp, h₁, h₂⟩ := h
  obtain ⟨q, hq, h₁', h₂'⟩ := h'
  exact (hp.unique hq h₁ h₂ h₁' h₂').2

theorem Layout.InBlock.not_outside (h : L.InBlock b a) : ¬ L.Outside a := by
  obtain ⟨p, hp, h₁, h₂⟩ := h
  have := hp.within h₁ h₂
  rintro ⟨hm, hB⟩
  cases p with
  | Mem => exact hm this
  | MemBig => exact hB this

theorem Layout.Within.inBlock (h : L.Within b a n) {i : ℕ} (hi : i < n) :
    L.InBlock b (a + i) := by
  obtain ⟨p, hp, h₁, h₂⟩ := h
  exact ⟨p, hp, by omega, by omega⟩

theorem Layout.Block.inBlock (h : L.Block p b) {i : ℕ} (hi : i < p.size) : L.InBlock b (b + i) :=
  ⟨p, h, Nat.le_add_right b i, Nat.add_lt_add_left hi b⟩

/-- All block starts of a partition, as a list. -/
def Layout.blocks (L : Layout) (p : Partition) : List ℕ := blocksFrom p.size p.num (L.base p)

theorem Layout.mem_blocks : b ∈ L.blocks p ↔ L.Block p b := mem_blocksFrom

theorem Layout.length_blocks (L : Layout) (p : Partition) : (L.blocks p).length = p.num :=
  length_blocksFrom _ _ _

theorem Layout.nodup_blocks (L : Layout) (p : Partition) : (L.blocks p).Nodup :=
  nodup_blocksFrom p.size_pos _ _

/-! ### The state of the kernel objects -/

/-- Memory, the two partitions and the message queues. -/
structure Kernel where
  mem : Memory.Mem
  part : Partition → OsMem
  QMessage : Fin TASK_NUM → OsQ

/-- `SYS_Start`, on any contents of memory and of the queue arrays. -/
def sysStart (L : Layout) (mem : Memory.Mem) (OSQ_MSG : Fin TASK_NUM → ℕ → ℕ) : Kernel :=
  let small := osMemCreate (L.base .Mem) MEM_NUM MEM_SIZE mem
  let big := osMemCreate (L.base .MemBig) MEM_BIG_NUM MEM_BIG_SIZE small.2
  { mem := big.2
    part := fun
      | .Mem => small.1
      | .MemBig => big.1
    QMessage := fun i => osQCreate (OSQ_MSG i) MESSAGE_NUM }

/-- The free list of a partition. -/
def Kernel.freeList (k : Kernel) (p : Partition) : List ℕ := (k.part p).freeList k.mem

/-- The message pointers in a queue. -/
def Kernel.queued (k : Kernel) (t : Fin TASK_NUM) : List ℕ := (k.QMessage t).messages

end Stm32Templet.Sys
