import Stm32Templet.Lib.Places
import Stm32Templet.Sys.Lists

/-! # Who has which block

The kernel objects together with a history: which blocks every task has taken and not given
away, which messages were posted, by whom and in which order, and what the accepted messages
contained.  `Shared.perform` is an access of a task with its effect on the history.

`Pools` is the invariant of this state.  Every block is in exactly one place (a free list, a
task or a queue), the free lists and queues are well formed, and the messages posted to a
queue are those accepted from it followed by those that stand in it.  Each operation on the
pools and queues moves some blocks from one place to another and keeps the invariant; a
change of memory that leaves the free and the queued blocks alone keeps it too
(`Pools.congr`). -/

namespace Stm32Templet.Sys

open Memory Os Tasks Atomic Places

variable {Tid : Type}

/-! ### State and accesses -/

/-- A message that was posted. -/
structure Post (Tid : Type) where
  sender : Tid
  call : Send
  /-- The bytes that the call has read from `pData`. -/
  payload : List UInt8
  /-- The bytes that stood at `pData` when the call began, if they still stood there at every
  later moment up to the post. -/
  src : Option (List UInt8)

def Post.msg (e : Post Tid) : Msg := e.call.msg e.payload

/-- The kernel objects and the history. -/
structure Shared (Tid : Type) where
  kernel : Kernel
  /-- The blocks that a task has taken and not given away. -/
  own : Tid → List ℕ
  /-- The posted messages, in the order of the posts. -/
  posted : List (Post Tid)
  /-- The contents of the messages accepted from a queue, in order, with their receivers. -/
  received : Fin TASK_NUM → List (Tid × Msg)

/-- A list without some of its elements. -/
def without (bs l : List ℕ) : List ℕ := l.filter fun b => b ∉ bs

/-- An access of task `x`, `job` being the entry for the message that it may post. -/
def Shared.perform [DecidableEq Tid] (x : Tid) (job : Option (Post Tid)) :
    (a : Act) → Shared Tid → a.Res × Shared Tid
  | .load n a, s => ((access (.load n a) s.kernel).1, s)
  | .store n a v, s => ((), { s with kernel := (access (.store n a v) s.kernel).2 })
  | .osMemGet p, s =>
      let r := access (.osMemGet p) s.kernel
      (r.1, { s with
        kernel := r.2
        own := if r.1.2 = 0 then Function.update s.own x (r.1.1 :: s.own x) else s.own })
  | .osMemPut p b, s =>
      let r := access (.osMemPut p b) s.kernel
      (r.1, { s with
        kernel := r.2
        own := if r.1 = 0 then Function.update s.own x (without [b] (s.own x)) else s.own })
  | .osQPost t a, s =>
      let r := access (.osQPost t a) s.kernel
      (r.1, { s with
        kernel := r.2
        own :=
          if r.1 = 0 then Function.update s.own x (without (msgBlocks s.kernel.mem a) (s.own x))
          else s.own
        posted := if r.1 = 0 then s.posted ++ job.toList else s.posted })
  | .osQAccept t, s =>
      let r := access (.osQAccept t) s.kernel
      (r.1, { s with
        kernel := r.2
        own :=
          if r.1.2 = 0 then Function.update s.own x (msgBlocks s.kernel.mem r.1.1 ++ s.own x)
          else s.own
        received :=
          if r.1.2 = 0 then
            Function.update s.received t (s.received t ++ [(x, decode s.kernel.mem r.1.1)])
          else s.received })

/-! ### Reading a message -/

section Message

variable {L : Layout} {m m' : Mem} {a : ℕ}

theorem mem_msgBlocks (m : Mem) (a : ℕ) : a ∈ msgBlocks m a := by
  unfold msgBlocks
  split <;> exact List.mem_cons_self

theorem dataPtr_mem (h : Split (headLen m a)) : dataPtr m a ∈ msgBlocks m a := by
  unfold msgBlocks
  rw [if_pos h]
  exact List.mem_cons_of_mem _ List.mem_cons_self

theorem load_congr_block (h : L.Block .Mem a) (hs : ∀ x, L.InBlock a x → m x = m' x) {n i : ℕ}
    (hi : i + n ≤ MEM_SIZE) : load m n (a + i) = load m' n (a + i) :=
  load_congr n _ fun j hj => hs _ ⟨.Mem, h, by omega, by
    change a + i + j < a + MEM_SIZE
    omega⟩

variable (hf : Formed L m a) (hs : Same L m m' (msgBlocks m a))

include hf hs

theorem headLen_congr : headLen m a = headLen m' a :=
  load_congr_block hf.block (hs a (mem_msgBlocks m a)) (by decide)

theorem dataPtr_congr : dataPtr m a = dataPtr m' a :=
  load_congr_block hf.block (hs a (mem_msgBlocks m a)) (by decide)

theorem msgBlocks_congr : msgBlocks m a = msgBlocks m' a := by
  unfold msgBlocks
  rw [headLen_congr hf hs, dataPtr_congr hf hs]

theorem Formed.congr : Formed L m' a := by
  refine ⟨hf.block, ?_⟩
  rw [← headLen_congr hf hs, ← dataPtr_congr hf hs]
  exact hf.payload

/-- A byte of the payload lies in a block of the message. -/
theorem decode_congr : decode m a = decode m' a := by
  have hblock := hs a (mem_msgBlocks m a)
  have hpayload : bytes m (if Split (headLen m a) then dataPtr m a else a + HEAD_SIZE)
      (headLen m a) =
      bytes m' (if Split (headLen m a) then dataPtr m a else a + HEAD_SIZE) (headLen m a) := by
    refine bytes_congr fun i hi => ?_
    by_cases hsplit : Split (headLen m a)
    · obtain ⟨hlen, hd, _⟩ := hf.payload hsplit
      rw [if_pos hsplit]
      refine hs _ (dataPtr_mem hsplit) _ (hd.inBlock ?_)
      unfold payloadPart
      split
      · exact hi.trans_le (by assumption)
      · exact hi.trans_le hlen
    · rw [if_neg hsplit]
      unfold Split MEM_SIZE HEAD_SIZE at hsplit
      refine hblock _ ⟨.Mem, hf.block, by omega, ?_⟩
      change a + 8 + i < a + 32
      omega
  have h0 := load_congr_block (n := 2) (i := 0) hf.block hblock (by decide)
  have h2 := load_congr_block (n := 2) (i := 2) hf.block hblock (by decide)
  have h4 := load_congr_block (n := 2) (i := 4) hf.block hblock (by decide)
  unfold decode
  rw [hpayload, headLen_congr hf hs, dataPtr_congr hf hs, h2, h4]
  rw [Nat.add_zero] at h0
  rw [h0]

end Message

/-! ### The invariant -/

/-- Where a block can be. -/
inductive Place (Tid : Type) where
  | free (p : Partition)
  | task (x : Tid)
  | queued (t : Fin TASK_NUM)
deriving DecidableEq

/-- The blocks in a place, given the free lists and the queues. -/
def Shared.placed (s : Shared Tid) (free : Partition → List ℕ) (queue : Fin TASK_NUM → List ℕ) :
    Place Tid → List ℕ
  | .free p => free p
  | .task x => s.own x
  | .queued t => (queue t).flatMap (msgBlocks s.kernel.mem)

/-- The pools and queues are well formed, with the given free lists and queues. -/
structure Pools (L : Layout) (s : Shared Tid) (free : Partition → List ℕ)
    (queue : Fin TASK_NUM → List ℕ) : Prop where
  lists : s.kernel.Lists L free
  rep : ∀ t, (s.kernel.QMessage t).Queue (queue t)
  size : ∀ t, (s.kernel.QMessage t).OSQSize = MESSAGE_NUM
  formed : ∀ t, ∀ a ∈ queue t, Formed L s.kernel.mem a
  places : Partitioned L.IsBlock (s.placed free queue)
  log : ∀ t, (s.posted.filter fun e => e.call.task = t).map Post.msg =
    (s.received t).map Prod.snd ++ (queue t).map (decode s.kernel.mem)

variable {L : Layout} {s : Shared Tid} {free : Partition → List ℕ}
  {queue : Fin TASK_NUM → List ℕ} {x : Tid} {p : Partition} {a b : ℕ} {t : Fin TASK_NUM}

theorem Pools.freeList_eq (h : Pools L s free queue) (p : Partition) :
    s.kernel.freeList p = free p :=
  h.lists.freeList_eq p

theorem Pools.queued_eq (h : Pools L s free queue) (t : Fin TASK_NUM) :
    s.kernel.queued t = queue t :=
  (h.rep t).messages_eq

theorem Pools.not_free (h : Pools L s free queue) (hb : b ∈ s.own x) (p : Partition) :
    b ∉ free p := by
  intro hf
  have hx : b ∈ s.placed free queue (.task x) := hb
  have hp : b ∈ s.placed free queue (.free p) := hf
  cases h.places.unique hx hp

/-- Only the free and the queued blocks matter. -/
theorem Pools.congr (h : Pools L s free queue) {m : Mem}
    (hfree : ∀ p, Same L s.kernel.mem m (free p))
    (hqueue : ∀ t, ∀ a ∈ queue t, Same L s.kernel.mem m (msgBlocks s.kernel.mem a)) :
    Pools L { s with kernel.mem := m } free queue where
  lists := h.lists.congr hfree
  rep := h.rep
  size := h.size
  formed t a ha := (h.formed t a ha).congr (hqueue t a ha)
  places := by
    have he : Shared.placed { s with kernel.mem := m } free queue = s.placed free queue := by
      funext i
      cases i with
      | free p => rfl
      | task x => rfl
      | queued t =>
          apply List.flatMap_congr
          intro a ha
          exact (msgBlocks_congr (h.formed t a ha) (hqueue t a ha)).symm
    rw [he]
    exact h.places
  log t := by
    rw [h.log t]
    refine congrArg _ (List.map_congr_left fun a ha => ?_)
    exact decode_congr (h.formed t a ha) (hqueue t a ha)

/-- A change inside the blocks of a task or outside the pools. -/
theorem Pools.congr_own (h : Pools L s free queue) {m : Mem} (bs : List ℕ)
    (hbs : ∀ b ∈ bs, b ∈ s.own x)
    (hm : ∀ a, (∀ b ∈ bs, ¬ L.InBlock b a) → ¬ L.Outside a → s.kernel.mem a = m a) :
    Pools L { s with kernel.mem := m } free queue := by
  have hother : ∀ i, i ≠ Place.task x → ∀ b ∈ s.placed free queue i, ∀ a, L.InBlock b a →
      s.kernel.mem a = m a := by
    intro i hi b hb a ha
    refine hm a (fun c hc hca => ?_) ha.not_outside
    have hcx : c ∈ s.placed free queue (.task x) := hbs c hc
    rw [hca.unique ha] at hcx
    exact hi (h.places.unique hb hcx)
  refine h.congr (fun p b hb => hother (.free p) (by simp) b hb) fun t a ha b hb => ?_
  exact hother (.queued t) (by simp) b (List.mem_flatMap.mpr ⟨a, ha, hb⟩)

/-- A list is part of the blocks of its messages. -/
theorem sublist_flatMap (m : Mem) : ∀ l : List ℕ, l.Sublist (l.flatMap (msgBlocks m))
  | [] => List.Sublist.refl _
  | a :: l => by
      rw [List.flatMap_cons]
      have hhead : List.Sublist [a] (msgBlocks m a) :=
        List.singleton_sublist.mpr (mem_msgBlocks m a)
      exact hhead.append (sublist_flatMap m l)

/-- Every queued message has a small block of its own, and none of them is one that is
somewhere else. -/
theorem Pools.queued_apart (h : Pools L s free queue) {i : Place Tid} (hb : L.Block .Mem b)
    (hplace : b ∈ s.placed free queue i) (hi : i ≠ .queued t) :
    (b :: queue t).Nodup ∧ ∀ c ∈ b :: queue t, L.Block .Mem c := by
  have hnot : b ∉ queue t := by
    intro hq
    have hqueued : b ∈ s.placed free queue (.queued t) :=
      List.mem_flatMap.mpr ⟨b, hq, mem_msgBlocks s.kernel.mem b⟩
    exact hi (h.places.unique hplace hqueued)
  refine ⟨List.nodup_cons.mpr ⟨hnot, ?_⟩, fun c hc => ?_⟩
  · exact (h.places.nodup (.queued t)).sublist (sublist_flatMap s.kernel.mem (queue t))
  · rcases List.mem_cons.mp hc with rfl | hc
    · exact hb
    · exact (h.formed t c hc).block

/-- There are not more small blocks than places in a queue. -/
theorem Layout.length_blocks_le {l : List ℕ} (hnd : l.Nodup) (hl : ∀ c ∈ l, L.Block .Mem c) :
    l.length ≤ MESSAGE_NUM := by
  have hle := (List.subperm_of_subset hnd fun c hc => L.mem_blocks.mpr (hl c hc)).length_le
  rwa [L.length_blocks] at hle

/-- A queue is not full while a small block is somewhere else. -/
theorem Pools.queue_room (h : Pools L s free queue) {i : Place Tid} (hb : L.Block .Mem b)
    (hplace : b ∈ s.placed free queue i) (hi : i ≠ .queued t) :
    (queue t).length < MESSAGE_NUM := by
  obtain ⟨hnd, hblocks⟩ := h.queued_apart hb hplace hi
  exact Layout.length_blocks_le hnd hblocks

/-! ### The operations -/

variable [DecidableEq Tid] (job : Option (Post Tid))

/-- `OSMemGet` with a free block: it goes to the task. -/
theorem Pools.get (h : Pools L s free queue) {l : List ℕ} (hl : free p = b :: l) :
    ∃ s', s.perform x job (.osMemGet p) = ((b, 0), s') ∧
      Pools L s' (Function.update free p l) queue ∧ s'.kernel.mem = s.kernel.mem ∧
      s'.own = Function.update s.own x (b :: s.own x) ∧ s'.posted = s.posted ∧
      s'.received = s.received := by
  obtain ⟨k', hget, hlists, hmem, hq⟩ := h.lists.get hl
  simp only [Shared.perform, hget, OS_ERR_NONE, if_true]
  refine ⟨_, rfl, ⟨hlists, ?_, ?_, ?_, ?_, ?_⟩, hmem, rfl, rfl, rfl⟩
  · exact hq ▸ h.rep
  · exact hq ▸ h.size
  · exact hmem ▸ h.formed
  · refine h.places.move (i := .free p) (j := .task x) [b] (by simp) ?_ ?_ ?_
    · simp [Shared.placed, hl]
    · simp [Shared.placed]
    · intro k hi hj
      cases k with
      | free q => exact Function.update_of_ne (fun he => hi (by rw [he])) _ _
      | task y => exact Function.update_of_ne (fun he => hj (by rw [he])) _ _
      | queued t => simp only [Shared.placed, hmem]
  · exact hmem ▸ h.log

theorem Pools.get_nil (h : Pools L s free queue) (hl : free p = []) :
    s.perform x job (.osMemGet p) = ((0, OS_ERR_MEM_NO_FREE_BLKS), s) := by
  simp only [Shared.perform, h.lists.get_nil hl]
  rfl

/-- `OSMemPut` of a block of the task: it goes to the free list. -/
theorem Pools.put (h : Pools L s free queue) (hown : b ∈ s.own x) (hb : L.Block p b) :
    ∃ s', s.perform x job (.osMemPut p b) = (0, s') ∧
      Pools L s' (Function.update free p (b :: free p)) queue ∧
      s'.kernel.mem = store s.kernel.mem 4 b (s.kernel.part p).OSMemFreeList ∧
      s'.own = Function.update s.own x (without [b] (s.own x)) ∧ s'.posted = s.posted ∧
      s'.received = s.received := by
  obtain ⟨k', hput, hlists, hmem, hq⟩ := h.lists.put hb (h.not_free hown p)
  -- first the link is written into the block, then the block changes its place
  have hlink : Pools L { s with
      kernel.mem := store s.kernel.mem 4 b (s.kernel.part p).OSMemFreeList } free queue := by
    refine h.congr_own (x := x) [b] (by simpa using hown) fun a ha _ => ?_
    exact (store_of_not_inBlock hb.within_link (ha b List.mem_cons_self)).symm
  simp only [Shared.perform, hput, OS_ERR_NONE, if_true]
  refine ⟨_, rfl, ⟨hlists, ?_, ?_, ?_, ?_, ?_⟩, hmem, rfl, rfl, rfl⟩
  · exact hq ▸ h.rep
  · exact hq ▸ h.size
  · rw [hmem]
    exact hlink.formed
  · refine hlink.places.move (i := .task x) (j := .free p) [b] (by simp) ?_ ?_ ?_
    · simp only [Shared.placed, Function.update_self]
      exact perm_append_filter (h.places.nodup (.task x)) (List.nodup_singleton b)
        (by simpa using hown)
    · simp [Shared.placed]
    · intro k hi hj
      cases k with
      | free q => exact Function.update_of_ne (fun he => hj (by rw [he])) _ _
      | task y => exact Function.update_of_ne (fun he => hi (by rw [he])) _ _
      | queued t => simp only [Shared.placed, hmem]
  · rw [hmem]
    exact hlink.log

/-- `OSQPost` with room in the queue: the blocks of the message go to the queue. -/
theorem Pools.post (h : Pools L s free queue) (hroom : (queue t).length < MESSAGE_NUM)
    (hf : Formed L s.kernel.mem a) (hown : ∀ b ∈ msgBlocks s.kernel.mem a, b ∈ s.own x)
    {e : Post Tid} (ht : e.call.task = t) (hmsg : decode s.kernel.mem a = e.msg) :
    ∃ s', s.perform x (some e) (.osQPost t a) = (0, s') ∧
      Pools L s' free (Function.update queue t (queue t ++ [a])) ∧
      s'.kernel.mem = s.kernel.mem ∧
      s'.own = Function.update s.own x (without (msgBlocks s.kernel.mem a) (s.own x)) ∧
      s'.posted = s.posted ++ [e] ∧ s'.received = s.received := by
  obtain ⟨pq, hpost, hrep, hsize⟩ := (h.rep t).post (by rw [h.size]; exact hroom) a
  simp only [Shared.perform, access, hpost, if_true, Option.toList_some]
  refine ⟨_, rfl, ⟨?_, fun q => ?_, fun q => ?_, fun q c hc => ?_, ?_, fun q => ?_⟩,
    rfl, rfl, rfl, rfl⟩
  · exact ⟨h.lists.part, h.lists.nblks, h.lists.inPart, h.lists.nodup⟩
  · by_cases hq : q = t
    · subst hq
      simpa using hrep
    · simpa [hq] using h.rep q
  · by_cases hq : q = t
    · subst hq
      simpa [hsize] using h.size q
    · simpa [hq] using h.size q
  · by_cases hq : q = t
    · subst hq
      rw [Function.update_self] at hc
      rcases List.mem_append.mp hc with hc | hc
      · exact h.formed q c hc
      · exact List.mem_singleton.mp hc ▸ hf
    · rw [Function.update_of_ne hq] at hc
      exact h.formed q c hc
  · have hnd : (msgBlocks s.kernel.mem a).Nodup := by
      unfold msgBlocks
      split
      · rename_i hsplit
        simpa using (hf.payload hsplit).2.2.symm
      · exact List.nodup_singleton a
    refine h.places.move (i := .task x) (j := .queued t) (msgBlocks s.kernel.mem a)
      (by simp) ?_ ?_ ?_
    · simp only [Shared.placed, Function.update_self]
      exact perm_append_filter (h.places.nodup (.task x)) hnd hown
    · simp only [Shared.placed, Function.update_self, List.flatMap_append, List.flatMap_cons,
        List.flatMap_nil, List.append_nil]
      exact List.perm_append_comm
    · intro k hi hj
      cases k with
      | free q => rfl
      | task y => exact Function.update_of_ne (fun he => hi (by rw [he])) _ _
      | queued q =>
          simp only [Shared.placed]
          rw [Function.update_of_ne fun he => hj (by rw [he])]
  · by_cases hq : q = t
    · subst hq
      simp [h.log q, hmsg, ht]
    · have hq' : e.call.task ≠ q := fun he => hq (he.symm.trans ht)
      simp [h.log q, hq, hq']

theorem Pools.post_full (h : Pools L s free queue) (hfull : (queue t).length = MESSAGE_NUM) :
    s.perform x job (.osQPost t a) = (OS_ERR_Q_FULL, s) := by
  have hpost := (h.rep t).post_full (by rw [h.size]; exact hfull) a
  simp only [Shared.perform, access, hpost, Function.update_eq_self]
  rfl

/-- `OSQAccept` of the oldest message: its blocks go to the task. -/
theorem Pools.accept (h : Pools L s free queue) {l : List ℕ} (hl : queue t = a :: l) :
    ∃ s', s.perform x job (.osQAccept t) = ((a, 0), s') ∧
      Pools L s' free (Function.update queue t l) ∧ s'.kernel.mem = s.kernel.mem ∧
      s'.own = Function.update s.own x (msgBlocks s.kernel.mem a ++ s.own x) ∧
      s'.posted = s.posted ∧
      s'.received =
        Function.update s.received t (s.received t ++ [(x, decode s.kernel.mem a)]) := by
  have hrep := h.rep t
  rw [hl] at hrep
  obtain ⟨pq, haccept, hrep', hsize⟩ := hrep.accept_cons
  simp only [Shared.perform, access, haccept, if_true]
  refine ⟨_, rfl, ⟨?_, fun q => ?_, fun q => ?_, fun q c hc => ?_, ?_, fun q => ?_⟩,
    rfl, rfl, rfl, rfl⟩
  · exact ⟨h.lists.part, h.lists.nblks, h.lists.inPart, h.lists.nodup⟩
  · by_cases hq : q = t
    · subst hq
      simpa using hrep'
    · simpa [hq] using h.rep q
  · by_cases hq : q = t
    · subst hq
      simpa [hsize] using h.size q
    · simpa [hq] using h.size q
  · by_cases hq : q = t
    · subst hq
      rw [Function.update_self] at hc
      exact h.formed q c (hl ▸ List.mem_cons_of_mem a hc)
    · rw [Function.update_of_ne hq] at hc
      exact h.formed q c hc
  · refine h.places.move (i := .queued t) (j := .task x) (msgBlocks s.kernel.mem a)
      (by simp) ?_ ?_ ?_
    · simp [Shared.placed, hl]
    · simp [Shared.placed]
    · intro k hi hj
      cases k with
      | free q => rfl
      | task y => exact Function.update_of_ne (fun he => hj (by rw [he])) _ _
      | queued q =>
          simp only [Shared.placed]
          rw [Function.update_of_ne fun he => hi (by rw [he])]
  · by_cases hq : q = t
    · subst hq
      simp [h.log q, hl]
    · simp [h.log q, hq]

theorem Pools.accept_nil (h : Pools L s free queue) (hl : queue t = []) :
    s.perform x job (.osQAccept t) = ((0, OS_ERR_Q_EMPTY), s) := by
  have hrep := h.rep t
  rw [hl] at hrep
  simp only [Shared.perform, access, hrep.accept_nil, Function.update_eq_self]
  rfl

end Stm32Templet.Sys
