import Stm32Templet.Lib.Memory

/-! # Memory partitions

`UCOSII/CORE/os_mem.c`: a partition is an array of blocks of one size; the free ones form a
linked list whose links are stored in the first four bytes of the blocks themselves.  The
functions run in critical sections, so each is one step.  Argument checking is off in this
configuration.

`links` reads the free list from memory; `Chain` says that it ends after the given blocks. -/

namespace Stm32Templet.Os

open Memory

def OS_ERR_NONE : ℕ := 0

def OS_ERR_MEM_NO_FREE_BLKS : ℕ := 93

def OS_ERR_MEM_FULL : ℕ := 94

/-- `OS_MEM`, the memory control block. -/
structure OsMem where
  OSMemAddr : ℕ
  OSMemFreeList : ℕ
  OSMemBlkSize : ℕ
  OSMemNBlks : ℕ
  OSMemNFree : ℕ

/-- The loop of `OSMemCreate`: each of the `loops` blocks from `pblk` on is linked to its
successor, the last one to `NULL`. -/
def linkBlocks (blksize : ℕ) : ℕ → ℕ → Mem → Mem
  | 0, plink, m => store m 4 plink 0
  | loops + 1, plink, m =>
      linkBlocks blksize loops (plink + blksize) (store m 4 plink (plink + blksize))

/-- `OSMemCreate`. -/
def osMemCreate (addr nblks blksize : ℕ) (m : Mem) : OsMem × Mem :=
  ({ OSMemAddr := addr
     OSMemFreeList := addr
     OSMemNFree := nblks
     OSMemNBlks := nblks
     OSMemBlkSize := blksize },
   linkBlocks blksize (nblks - 1) addr m)

/-- `OSMemGet`: the block and the error code. -/
def osMemGet (pmem : OsMem) (m : Mem) : (ℕ × ℕ) × OsMem :=
  if pmem.OSMemNFree > 0 then
    ((pmem.OSMemFreeList, OS_ERR_NONE),
     { pmem with
       OSMemFreeList := load m 4 pmem.OSMemFreeList
       OSMemNFree := pmem.OSMemNFree - 1 })
  else ((0, OS_ERR_MEM_NO_FREE_BLKS), pmem)

/-- `OSMemPut`. -/
def osMemPut (pmem : OsMem) (pblk : ℕ) (m : Mem) : ℕ × OsMem × Mem :=
  if pmem.OSMemNFree ≥ pmem.OSMemNBlks then (OS_ERR_MEM_FULL, pmem, m)
  else
    (OS_ERR_NONE,
     { pmem with
       OSMemFreeList := pblk
       OSMemNFree := pmem.OSMemNFree + 1 },
     store m 4 pblk pmem.OSMemFreeList)

/-! ### The free list -/

/-- The first `n` blocks of the list starting at `head`. -/
def links (m : Mem) : ℕ → ℕ → List ℕ
  | 0, _ => []
  | n + 1, head => head :: links m n (load m 4 head)

/-- The list starting at `head` consists of the blocks `l` and ends with `NULL`. -/
def Chain (m : Mem) : ℕ → List ℕ → Prop
  | head, [] => head = 0
  | head, b :: l => head = b ∧ Chain m (load m 4 b) l

/-- The free list of a partition. -/
def OsMem.freeList (pmem : OsMem) (m : Mem) : List ℕ := links m pmem.OSMemNFree pmem.OSMemFreeList

/-- The blocks `l` are the free list of the partition, in this order. -/
structure OsMem.Free (pmem : OsMem) (m : Mem) (l : List ℕ) : Prop where
  chain : Chain m pmem.OSMemFreeList l
  nfree : pmem.OSMemNFree = l.length

variable {m m' : Mem} {pmem : OsMem} {l : List ℕ} {b : ℕ}

theorem Chain.links_eq {l : List ℕ} {head : ℕ} (h : Chain m head l) :
    links m l.length head = l := by
  induction l generalizing head with
  | nil => rfl
  | cons b l ih =>
      obtain ⟨rfl, h⟩ := h
      rw [List.length_cons, links, ih h]

theorem OsMem.Free.freeList_eq (h : pmem.Free m l) : pmem.freeList m = l := by
  rw [freeList, h.nfree, h.chain.links_eq]

/-- A list depends on the links in its blocks only. -/
theorem Chain.congr {l : List ℕ} {head : ℕ} (h : Chain m head l)
    (hm : ∀ b ∈ l, ∀ i < 4, m (b + i) = m' (b + i)) : Chain m' head l := by
  induction l generalizing head with
  | nil => exact h
  | cons b l ih =>
      obtain ⟨rfl, h⟩ := h
      refine ⟨rfl, ?_⟩
      rw [← load_congr 4 _ (hm _ List.mem_cons_self)]
      exact ih h fun c hc => hm c (List.mem_cons_of_mem _ hc)

theorem OsMem.Free.congr (h : pmem.Free m l) (hm : ∀ b ∈ l, ∀ i < 4, m (b + i) = m' (b + i)) :
    pmem.Free m' l :=
  ⟨h.chain.congr hm, h.nfree⟩

/-! ### The operations on the free list -/

theorem OsMem.Free.get_nil (h : pmem.Free m []) :
    osMemGet pmem m = ((0, OS_ERR_MEM_NO_FREE_BLKS), pmem) := by
  unfold osMemGet
  rw [if_neg]
  rw [h.nfree]
  exact lt_irrefl 0

theorem OsMem.Free.get_cons (h : pmem.Free m (b :: l)) :
    ∃ pmem', osMemGet pmem m = ((b, OS_ERR_NONE), pmem') ∧ pmem'.Free m l ∧
      pmem'.OSMemNBlks = pmem.OSMemNBlks := by
  obtain ⟨hb, hl⟩ := h.chain
  have hn := h.nfree
  rw [List.length_cons] at hn
  unfold osMemGet
  rw [if_pos (by omega), hb]
  refine ⟨_, rfl, ⟨hl, ?_⟩, rfl⟩
  simp only
  omega

theorem OsMem.Free.put (h : pmem.Free m l) (hroom : l.length < pmem.OSMemNBlks)
    (hhead : pmem.OSMemFreeList < 256 ^ 4) (hb : ∀ c ∈ l, c + 4 ≤ b ∨ b + 4 ≤ c) :
    ∃ pmem', osMemPut pmem b m = (OS_ERR_NONE, pmem', store m 4 b pmem.OSMemFreeList) ∧
      pmem'.Free (store m 4 b pmem.OSMemFreeList) (b :: l) ∧
      pmem'.OSMemNBlks = pmem.OSMemNBlks := by
  unfold osMemPut
  rw [if_neg (by rw [h.nfree]; omega)]
  refine ⟨_, rfl, ⟨⟨rfl, ?_⟩, ?_⟩, rfl⟩
  · rw [load_store_of_lt m hhead]
    refine h.chain.congr fun c hc i hi => (store_of_outside 4 b _ m ?_).symm
    have := hb c hc
    omega
  · simp only [List.length_cons, h.nfree]

/-! ### A new partition -/

/-- The blocks of an array. -/
def blocksFrom (blksize : ℕ) : ℕ → ℕ → List ℕ
  | 0, _ => []
  | n + 1, addr => addr :: blocksFrom blksize n (addr + blksize)

theorem mem_blocksFrom {blksize b n addr : ℕ} :
    b ∈ blocksFrom blksize n addr ↔ ∃ i < n, b = addr + i * blksize := by
  induction n generalizing addr with
  | zero => simp [blocksFrom]
  | succ n ih =>
      rw [blocksFrom, List.mem_cons, ih]
      constructor
      · rintro (rfl | ⟨i, hi, rfl⟩)
        · exact ⟨0, Nat.succ_pos n, by ring⟩
        · exact ⟨i + 1, by omega, by ring⟩
      · rintro ⟨i, hi, rfl⟩
        cases i with
        | zero => exact Or.inl (by ring)
        | succ i => exact Or.inr ⟨i, by omega, by ring⟩

theorem length_blocksFrom (blksize n addr : ℕ) : (blocksFrom blksize n addr).length = n := by
  induction n generalizing addr with
  | zero => rfl
  | succ n ih => rw [blocksFrom, List.length_cons, ih]

theorem nodup_blocksFrom {blksize : ℕ} (h : 0 < blksize) (n addr : ℕ) :
    (blocksFrom blksize n addr).Nodup := by
  induction n generalizing addr with
  | zero => exact List.nodup_nil
  | succ n ih =>
      refine List.nodup_cons.mpr ⟨fun hmem => ?_, ih _⟩
      obtain ⟨i, _, he⟩ := mem_blocksFrom.mp hmem
      omega

theorem linkBlocks_of_lt {blksize : ℕ} (n addr : ℕ) (m : Mem) {x : ℕ} (h : x < addr) :
    linkBlocks blksize n addr m x = m x := by
  induction n generalizing addr m with
  | zero => exact store_of_outside 4 _ 0 m (Or.inl h)
  | succ n ih => rw [linkBlocks, ih _ _ (by omega), store_of_outside 4 _ _ _ (Or.inl h)]

theorem linkBlocks_of_ge {blksize : ℕ} (hs : 4 ≤ blksize) (n addr : ℕ) (m : Mem) {x : ℕ}
    (h : addr + (n + 1) * blksize ≤ x) : linkBlocks blksize n addr m x = m x := by
  induction n generalizing addr m with
  | zero => exact store_of_outside 4 _ 0 m (Or.inr (by omega))
  | succ n ih =>
      have h' : addr + blksize + (n + 1) * blksize ≤ x := by
        calc addr + blksize + (n + 1) * blksize = addr + (n + 1 + 1) * blksize := by ring
          _ ≤ x := h
      rw [linkBlocks, ih _ _ h', store_of_outside 4 _ _ _ (Or.inr ?_)]
      have : 0 ≤ (n + 1) * blksize := Nat.zero_le _
      omega

/-- The loop links all blocks in the order of their addresses. -/
theorem chain_linkBlocks {blksize : ℕ} (hs : 4 ≤ blksize) (n addr : ℕ) (m : Mem)
    (h : addr + (n + 1) * blksize ≤ 256 ^ 4) :
    Chain (linkBlocks blksize n addr m) addr (blocksFrom blksize (n + 1) addr) := by
  induction n generalizing addr m with
  | zero =>
      refine ⟨rfl, ?_⟩
      rw [linkBlocks, load_store]
      rfl
  | succ n ih =>
      have h' : addr + blksize + (n + 1) * blksize ≤ 256 ^ 4 := by
        calc addr + blksize + (n + 1) * blksize = addr + (n + 1 + 1) * blksize := by ring
          _ ≤ 256 ^ 4 := h
      refine ⟨rfl, ?_⟩
      have hload : load (linkBlocks blksize (n + 1) addr m) 4 addr = addr + blksize := by
        rw [linkBlocks, load_congr 4 addr fun i hi => linkBlocks_of_lt n _ _ (by omega),
          load_store_of_lt]
        have : 0 < (n + 1) * blksize := Nat.mul_pos (Nat.succ_pos n) (by omega)
        omega
      rw [hload, linkBlocks]
      exact ih (addr + blksize) _ h'

theorem free_osMemCreate {addr nblks blksize : ℕ} (hs : 4 ≤ blksize) (hn : 0 < nblks)
    (hfit : addr + nblks * blksize ≤ 256 ^ 4) (m : Mem) :
    (osMemCreate addr nblks blksize m).1.Free (osMemCreate addr nblks blksize m).2
      (blocksFrom blksize nblks addr) := by
  obtain ⟨n, rfl⟩ := Nat.exists_eq_add_of_lt hn
  rw [Nat.zero_add] at hfit ⊢
  exact ⟨chain_linkBlocks hs n addr m hfit, (length_blocksFrom _ _ _).symm⟩

end Stm32Templet.Os
