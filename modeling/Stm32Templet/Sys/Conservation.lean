import Stm32Templet.Sys.Invariant

/-! # No block is lost or doubled

`conserved`: in every reachable state each of the blocks of the two pools is in exactly one
place, in the free list of its own partition, with one task, or in one queued message; the
free lists are chains without repetition that `OSMemNFree` counts; whatever is put back goes
to its own partition and the operation succeeds.  When nothing is queued and no task has a
block, both partitions are full. -/

namespace Stm32Templet.Sys

open Memory Os Tasks Atomic Places Runs

variable {Tid : Type} {L : Layout}

/-- The blocks in a place: the free lists and the queues are read from the kernel objects. -/
def Machine.placed (s : Machine Tid) : Place Tid → List ℕ :=
  s.shared.placed s.shared.kernel.freeList s.shared.kernel.queued

/-- The pools in a state. -/
structure Conserved (L : Layout) (s : Machine Tid) : Prop where
  /-- Every block is in one place, and there once; nothing else is in any place. -/
  places : (∀ b, L.IsBlock b → ∃! i, b ∈ s.placed i) ∧ (∀ i, (s.placed i).Nodup) ∧
    ∀ i, ∀ b ∈ s.placed i, L.IsBlock b
  /-- The blocks of an idle task are those of the messages it has not freed and those that
  `MEM_Get` has given to it. -/
  idle : ∀ x, (s.task x).run = none →
    (s.placed (.task x)).Perm ((s.task x).blocks s.shared.kernel.mem)
  /-- A free list ends with `NULL`, consists of blocks of its partition and is counted. -/
  lists : ∀ p, Chain s.shared.kernel.mem (s.shared.kernel.part p).OSMemFreeList
      (s.placed (.free p)) ∧ (∀ b ∈ s.placed (.free p), L.Block p b) ∧
    (s.shared.kernel.part p).OSMemNFree = (s.placed (.free p)).length
  /-- A block is put back by its owner, to its own partition, and this does not fail. -/
  put : ∀ x c p b k src seen, (s.task x).run = some ⟨c, .act (.osMemPut p b) k, src, seen⟩ →
    b ∈ s.placed (.task x) ∧ L.Block p b ∧
      (access (.osMemPut p b) s.shared.kernel).1 = OS_ERR_NONE
  /-- `MEM_Put` and `MSG_Free` return `OS_ERR_NONE`. -/
  returns : ∀ x c r src seen, (s.task x).run = some ⟨c, .ret r, src, seen⟩ →
    (∃ a, c = .put a ∨ c = .free a) → r.2 = OS_ERR_NONE
  /-- Both partitions are full when nothing is in use. -/
  full : (∀ t, s.shared.kernel.queued t = []) → (∀ x, s.placed (.task x) = []) →
    ∀ p, (s.placed (.free p)).Perm (L.blocks p) ∧ (s.shared.kernel.part p).OSMemNFree = p.num

variable {s : Machine Tid} {free : Partition → List ℕ} {queue : Fin TASK_NUM → List ℕ}

theorem Pools.placed_eq (hp : Pools L s.shared free queue) :
    s.placed = s.shared.placed free queue := by
  have hfree : s.shared.kernel.freeList = free := funext hp.freeList_eq
  have hqueue : s.shared.kernel.queued = queue := funext hp.queued_eq
  rw [Machine.placed, hfree, hqueue]

/-- With all other places empty the free list of a partition has all its blocks. -/
theorem Pools.full (hp : Pools L s.shared free queue) (hqueue : ∀ t, queue t = [])
    (hown : ∀ x, s.shared.own x = []) (p : Partition) : (free p).Perm (L.blocks p) := by
  refine (List.perm_ext_iff_of_nodup (hp.lists.nodup p) (L.nodup_blocks p)).mpr fun b => ?_
  rw [L.mem_blocks]
  refine ⟨hp.lists.inPart p b, fun hb => ?_⟩
  obtain ⟨i, hi⟩ := hp.places.covers hb.isBlock
  cases i with
  | free q =>
      have hq : b ∈ free q := hi
      exact hb.part_unique (hp.lists.inPart q b hq) ▸ hq
  | task x =>
      have hx : b ∈ s.shared.own x := hi
      rw [hown x] at hx
      cases hx
  | queued t =>
      simp only [Shared.placed, hqueue t] at hi
      cases hi

variable [DecidableEq Tid]

/-- In every interleaving of the tasks no block is lost or doubled. -/
theorem conserved (h : Reachable L s) : Conserved L s := by
  have hok := ok_of_reachable h
  obtain ⟨free, queue, hp⟩ := hok.sound
  have hplaced := hp.placed_eq
  refine ⟨⟨fun b hb => ?_, fun i => ?_, fun i b hb => ?_⟩, fun x hidle => ?_, fun p => ?_,
    fun x c p b k src seen hrun => ?_, fun x c r src seen hrun hc => ?_,
    fun hqueue hown p => ?_⟩
  · rw [hplaced]
    exact hp.places.existsUnique hb
  · rw [hplaced]
    exact hp.places.nodup i
  · rw [hplaced] at hb
    exact hp.places.valid hb
  · exact (hok.task x).idle hidle
  · rw [hplaced]
    exact ⟨(hp.lists.part p).chain, hp.lists.inPart p, hp.lists.nfree_eq p⟩
  · obtain ⟨v, hact, _, ⟨_, hb, hblock⟩, _⟩ := (hok.task x).busy _ hrun
    refine ⟨hact.got_own hb, hblock, ?_⟩
    obtain ⟨k', hput, _⟩ := hp.lists.put hblock (hp.not_free (hact.got_own hb) p)
    rw [hput]
  · obtain ⟨v, _, _, hdone⟩ := (hok.task x).busy _ hrun
    obtain ⟨a, rfl | rfl⟩ := hc
    · exact hdone.1
    · exact hdone.1
  · have hfull := hp.full (fun t => (hp.queued_eq t).symm.trans (hqueue t)) hown p
    rw [hplaced]
    refine ⟨hfull, (hp.lists.nfree_eq p).trans ?_⟩
    rw [hfull.length_eq, L.length_blocks]

/-- A layout with the two arrays side by side. -/
def sideBySide : Layout where
  base
    | .Mem => 536870912
    | .MemBig => 536870912 + MEM_NUM * MEM_SIZE
  pos p := by cases p <;> decide
  fits p := by cases p <;> decide
  apart := Or.inl le_rfl

/-- The tasks of `User/src/main.c`. -/
inductive MainTask where
  | start
  | one
  | two
deriving DecidableEq

/-- These tasks, on memory filled with zeros. -/
def booted : Machine MainTask := Machine.start sideBySide (fun _ => 0) fun _ _ => 0

/-- One task posts a message, and another one takes a block of the other partition meanwhile. -/
def queuedMessage : List (Event MainTask) :=
  [.write .one 4096 7, .call .one (.send ⟨0, 1, 0, 0, 4096, 1⟩), .act .one,
    .call .start (.get 200)] ++ List.replicate 8 (.act .one) ++ [.act .start, .ret .one]

theorem conserved_two_tasks :
    ∃ s, exec (Machine.step sideBySide) booted queuedMessage = some s ∧
      s.shared.kernel.queued 0 ≠ [] ∧ Conserved sideBySide s := by
  have hrun : (exec (Machine.step sideBySide) booted queuedMessage).any fun s =>
      s.shared.kernel.queued 0 ≠ [] := by decide +kernel
  obtain ⟨s, hs, hqueued⟩ := (Option.any_eq_true ..).mp hrun
  exact ⟨s, hs, of_decide_eq_true hqueued, conserved ⟨_, _, _, hs⟩⟩

end Stm32Templet.Sys
