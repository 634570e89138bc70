import Mathlib.Data.List.Perm.Subperm
import Stm32Templet.Sys.Message

/-! # The free lists of the two partitions

`Kernel.Lists` says that both partitions are well formed and names their free lists.  Each
access to a partition keeps this and changes one list at its front; a change of memory that
leaves the free blocks alone keeps the lists (`Kernel.Lists.congr`).  `SYS_Start` makes lists
of all blocks. -/

namespace Stm32Templet.Sys

open Memory Os Tasks Atomic

/-- The two memories agree on the blocks `bs`. -/
def Same (L : Layout) (m m' : Mem) (bs : List ℕ) : Prop :=
  ∀ b ∈ bs, ∀ a, L.InBlock b a → m a = m' a

/-- The partitions are well formed, with the given free lists. -/
structure Kernel.Lists (L : Layout) (k : Kernel) (free : Partition → List ℕ) : Prop where
  part : ∀ p, (k.part p).Free k.mem (free p)
  nblks : ∀ p, (k.part p).OSMemNBlks = p.num
  inPart : ∀ p, ∀ b ∈ free p, L.Block p b
  nodup : ∀ p, (free p).Nodup

variable {L : Layout} {k : Kernel} {free : Partition → List ℕ} {p : Partition} {b : ℕ}

theorem Kernel.Lists.freeList_eq (h : k.Lists L free) (p : Partition) : k.freeList p = free p :=
  (h.part p).freeList_eq

theorem Kernel.Lists.nfree_eq (h : k.Lists L free) (p : Partition) :
    (k.part p).OSMemNFree = (free p).length :=
  (h.part p).nfree

theorem Kernel.Lists.congr (h : k.Lists L free) {m : Mem}
    (hm : ∀ p, Same L k.mem m (free p)) : Kernel.Lists L { k with mem := m } free where
  part := by
    intro p
    refine (h.part p).congr fun b hb i hi => ?_
    exact hm p b hb _ ((h.inPart p b hb).inBlock (hi.trans_le p.four_le_size))
  nblks := h.nblks
  inPart := h.inPart
  nodup := h.nodup

theorem Layout.Block.apart {q : Partition} {c : ℕ} (h : L.Block p b) (h' : L.Block q c)
    (hne : b ≠ c) : b + p.size ≤ c ∨ c + q.size ≤ b := by
  by_contra hn
  have hp := p.size_pos
  have hq := q.size_pos
  apply hne
  exact (h.unique h' (a := max b c) (by omega) (by omega) (by omega) (by omega)).2

theorem store_of_not_inBlock {m : Mem} {n a w y : ℕ} (hw : L.Within b a n)
    (hy : ¬ L.InBlock b y) : store m n a w y = m y := by
  apply store_of_outside n a w m
  by_contra hn
  obtain ⟨p, hp, h₁, h₂⟩ := hw
  exact hy ⟨p, hp, by omega, by omega⟩

theorem Layout.Block.within_link (h : L.Block p b) : L.Within b b 4 :=
  ⟨p, h, le_rfl, Nat.add_le_add_left p.four_le_size b⟩

theorem Kernel.Lists.inside (h : k.Lists L free) {m : Mem} (hb : ∀ p, b ∉ free p)
    (hm : ∀ y, ¬ L.InBlock b y → m y = k.mem y) :
    Kernel.Lists L { k with mem := m } free := by
  apply h.congr
  intro p c hc y hy
  refine (hm y fun hy' => hb p ?_).symm
  exact hy.unique hy' ▸ hc

theorem Kernel.Lists.store (h : k.Lists L free) {n a : ℕ} (hw : L.Within b a n)
    (hb : ∀ p, b ∉ free p) (w : ℕ) : Kernel.Lists L { k with mem := store k.mem n a w } free :=
  h.inside hb fun _ hy => store_of_not_inBlock hw hy

/-- The free list of a partition that misses one of its blocks is not full. -/
theorem Kernel.Lists.room (h : k.Lists L free) (hb : L.Block p b) (hn : b ∉ free p) :
    (free p).length < p.num := by
  have hnd : (b :: free p).Nodup := List.nodup_cons.mpr ⟨hn, h.nodup p⟩
  have hsub : ∀ c ∈ b :: free p, c ∈ L.blocks p := by
    intro c hc
    rw [L.mem_blocks]
    rcases List.mem_cons.mp hc with rfl | hc
    · exact hb
    · exact h.inPart p c hc
  have hle := (List.subperm_of_subset hnd hsub).length_le
  rw [L.length_blocks, List.length_cons] at hle
  exact hle

/-! ### The accesses -/

theorem Kernel.Lists.get (h : k.Lists L free) {l : List ℕ} (hl : free p = b :: l) :
    ∃ k', access (.osMemGet p) k = ((b, OS_ERR_NONE), k') ∧
      k'.Lists L (Function.update free p l) ∧ k'.mem = k.mem ∧ k'.QMessage = k.QMessage := by
  have hpart := h.part p
  rw [hl] at hpart
  obtain ⟨pm, hget, hfree, hnblks⟩ := hpart.get_cons
  refine ⟨{ k with part := Function.update k.part p pm }, ?_, ?_, rfl, rfl⟩
  · simp only [access, hget]
  refine ⟨fun q => ?_, fun q => ?_, fun q c hc => ?_, fun q => ?_⟩
  all_goals by_cases hq : q = p
  · subst hq
    simpa using hfree
  · simpa [hq] using h.part q
  · subst hq
    simpa [hnblks] using h.nblks q
  · simpa [hq] using h.nblks q
  · subst hq
    rw [Function.update_self] at hc
    exact h.inPart q c (hl ▸ List.mem_cons_of_mem b hc)
  · rw [Function.update_of_ne hq] at hc
    exact h.inPart q c hc
  · subst hq
    rw [Function.update_self]
    exact (List.nodup_cons.mp (hl ▸ h.nodup q)).2
  · rw [Function.update_of_ne hq]
    exact h.nodup q

theorem Kernel.Lists.get_nil (h : k.Lists L free) (hl : free p = []) :
    access (.osMemGet p) k = ((0, OS_ERR_MEM_NO_FREE_BLKS), k) := by
  have hpart := h.part p
  rw [hl] at hpart
  simp only [access, hpart.get_nil, Function.update_eq_self]

theorem Kernel.Lists.head_lt (h : k.Lists L free) (p : Partition) :
    (k.part p).OSMemFreeList < 256 ^ 4 := by
  have hc := (h.part p).chain
  cases hl : free p with
  | nil =>
      rw [hl] at hc
      rw [hc]
      decide
  | cons c l =>
      rw [hl] at hc
      rw [hc.1]
      exact (h.inPart p c (hl ▸ List.mem_cons_self)).lt

theorem Kernel.Lists.put (h : k.Lists L free) (hb : L.Block p b) (hn : b ∉ free p) :
    ∃ k', access (.osMemPut p b) k = (OS_ERR_NONE, k') ∧
      k'.Lists L (Function.update free p (b :: free p)) ∧
      k'.mem = Memory.store k.mem 4 b (k.part p).OSMemFreeList ∧ k'.QMessage = k.QMessage := by
  have hroom : (free p).length < (k.part p).OSMemNBlks := by
    rw [h.nblks]
    exact h.room hb hn
  have hapart : ∀ c ∈ free p, c + 4 ≤ b ∨ b + 4 ≤ c := by
    intro c hc
    have hs := p.four_le_size
    rcases (h.inPart p c hc).apart hb (fun he => hn (he ▸ hc)) with ha | ha
    · exact Or.inl (by omega)
    · exact Or.inr (by omega)
  obtain ⟨pm, hput, hfree, hnblks⟩ := (h.part p).put hroom (h.head_lt p) hapart
  -- the link is written into a block that no list contains
  have hothers : ∀ q, b ∉ free q := by
    intro q hq
    obtain rfl := hb.part_unique (h.inPart q b hq)
    exact hn hq
  have hmem := h.store hb.within_link hothers (k.part p).OSMemFreeList
  refine ⟨{ k with
      part := Function.update k.part p pm
      mem := Memory.store k.mem 4 b (k.part p).OSMemFreeList }, ?_, ?_, rfl, rfl⟩
  · simp only [access, hput]
  refine ⟨fun q => ?_, fun q => ?_, fun q c hc => ?_, fun q => ?_⟩
  all_goals by_cases hq : q = p
  · subst hq
    simpa using hfree
  · simpa [hq] using hmem.part q
  · subst hq
    simpa [hnblks] using h.nblks q
  · simpa [hq] using h.nblks q
  · subst hq
    rw [Function.update_self] at hc
    rcases List.mem_cons.mp hc with rfl | hc
    · exact hb
    · exact h.inPart q c hc
  · rw [Function.update_of_ne hq] at hc
    exact h.inPart q c hc
  · subst hq
    rw [Function.update_self]
    exact List.nodup_cons.mpr ⟨hn, h.nodup q⟩
  · rw [Function.update_of_ne hq]
    exact h.nodup q

/-! ### After `SYS_Start` -/

theorem lists_sysStart (L : Layout) (mem : Mem) (OSQ_MSG : Fin TASK_NUM → ℕ → ℕ) :
    (sysStart L mem OSQ_MSG).Lists L L.blocks where
  part := by
    intro p
    cases p with
    | Mem =>
        refine OsMem.Free.congr (free_osMemCreate (by decide) (by decide) (L.fits .Mem) mem) ?_
        -- the second array is linked without touching the first
        intro b hb i hi
        have hin := (L.mem_blocks.mp hb).within (Nat.le_add_right b i)
          (Nat.add_lt_add_left (hi.trans_le Partition.Mem.four_le_size) b)
        obtain ⟨h₁, h₂⟩ := hin
        rcases L.apart with ha | ha
        · exact (linkBlocks_of_lt _ _ _ (lt_of_lt_of_le h₂ ha)).symm
        · exact (linkBlocks_of_ge (by decide) _ _ _ (le_trans ha h₁)).symm
    | MemBig => exact free_osMemCreate (by decide) (by decide) (L.fits .MemBig) _
  nblks p := by cases p <;> rfl
  inPart _ _ hb := L.mem_blocks.mp hb
  nodup := L.nodup_blocks

end Stm32Templet.Sys
