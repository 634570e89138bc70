import Stm32Templet.Sys.Conservation

/-! # A call that is not preempted

`MSG_Send` run in one go.  On any kernel objects whose free lists and queues are well formed
it either posts one message or returns an error code and leaves the free lists and the queues
as they were, in the same order (`run_msgSend`); this includes a post that fails.  In
reachable states a queue is never full while there is a free message block, so the pools alone
decide (`send_all_or_nothing`). -/

namespace Stm32Templet.Sys

open Memory Os Tasks Atomic Places Runs

/-! ### Taking and giving back -/

/-- The free lists with one more block in front of one of them. -/
def push (p : Partition) (b : ℕ) (f : Partition → List ℕ) : Partition → List ℕ :=
  Function.update f p (b :: f p)

variable {L : Layout} {k : Kernel} {f : Partition → List ℕ} {p : Partition} {a b : ℕ}

theorem exists_push (h : f p ≠ []) : ∃ b g, f = push p b g := by
  obtain ⟨b, l, hl⟩ := List.exists_cons_of_ne_nil h
  refine ⟨b, Function.update f p l, ?_⟩
  rw [push, Function.update_self, Function.update_idem, ← hl, Function.update_eq_self]

theorem push_self : push p b f p = b :: f p := Function.update_self _ _ _

theorem push_of_ne {q : Partition} (h : q ≠ p) : push p b f q = f q :=
  Function.update_of_ne h _ _

/-- The block in front is of the partition, and it is nowhere else. -/
theorem Kernel.Lists.front (h : k.Lists L (push p b f)) : L.Block p b ∧ ∀ q, b ∉ f q := by
  have hb : L.Block p b := h.inPart p b (by rw [push_self]; exact List.mem_cons_self)
  refine ⟨hb, fun q hq => ?_⟩
  by_cases he : q = p
  · subst he
    have hnd := h.nodup q
    rw [push_self] at hnd
    exact (List.nodup_cons.mp hnd).1 hq
  · exact he (hb.part_unique (h.inPart q b (by rw [push_of_ne he]; exact hq))).symm

theorem run_memGet {n : ℕ} (hsize : n ≤ MEM_BIG_SIZE)
    (h : k.Lists L (push (payloadPart n) b f)) :
    ∃ k', (memGet n).run access k = ((b, OS_ERR_NONE), k') ∧ k'.Lists L f ∧
      k'.mem = k.mem ∧ k'.QMessage = k.QMessage := by
  obtain ⟨k', hget, hlists, hmem, hq⟩ := h.get push_self
  rw [push, Function.update_idem, Function.update_eq_self] at hlists
  refine ⟨k', ?_, hlists, hmem, hq⟩
  unfold memGet
  unfold payloadPart at hget
  by_cases hsmall : n ≤ MEM_SIZE
  · rw [if_pos hsmall] at hget ⊢
    exact hget
  · rw [if_neg hsmall] at hget ⊢
    rw [if_pos hsize]
    exact hget

theorem run_memGet_none {n : ℕ} (h : k.Lists L f)
    (hnone : n ≤ MEM_BIG_SIZE → f (payloadPart n) = []) :
    ∃ err, err ≠ 0 ∧ (memGet n).run access k = ((0, err), k) := by
  unfold memGet
  by_cases hsmall : n ≤ MEM_SIZE
  · have hnil := hnone (hsmall.trans (by decide))
    rw [payloadPart, if_pos hsmall] at hnil
    rw [if_pos hsmall]
    exact ⟨OS_ERR_MEM_NO_FREE_BLKS, by decide, h.get_nil hnil⟩
  · rw [if_neg hsmall]
    split
    · rename_i hbig
      have hnil := hnone hbig
      rw [payloadPart, if_neg hsmall] at hnil
      exact ⟨OS_ERR_MEM_NO_FREE_BLKS, by decide, h.get_nil hnil⟩
    · exact ⟨0xff, by decide, rfl⟩

theorem run_memPut (h : k.Lists L f) (hb : L.Block p b) (hn : b ∉ f p) :
    ∃ k', (memPut L b).run access k = (OS_ERR_NONE, k') ∧ k'.Lists L (push p b f) ∧
      (∀ y, ¬ L.InBlock b y → k'.mem y = k.mem y) ∧ k'.QMessage = k.QMessage := by
  obtain ⟨k', hput, hlists, hmem, hq⟩ := h.put hb hn
  refine ⟨k', ?_, hlists, fun y hy => ?_, hq⟩
  · rw [memPut_eq hb]
    exact hput
  · rw [hmem]
    exact store_of_not_inBlock hb.within_link hy

theorem run_memcpy : ∀ (n dst src : ℕ) (k : Kernel),
    ∃ m, (memcpy dst src n).run access k = ((), { k with mem := m }) ∧
      ∀ y, y < dst ∨ dst + n ≤ y → m y = k.mem y := by
  intro n
  induction n with
  | zero => exact fun dst src k => ⟨k.mem, rfl, fun _ _ => rfl⟩
  | succ n ih =>
      intro dst src k
      obtain ⟨m, hrun, hm⟩ := ih (dst + 1) (src + 1)
        { k with mem := store k.mem 1 dst (load k.mem 1 src) }
      refine ⟨m, hrun, fun y hy => ?_⟩
      rw [hm y (by omega)]
      exact store_of_outside 1 dst _ k.mem (by omega)

/-! ### The outcome of a call -/

/-- One message was appended to the queue `t`. -/
def Appended (k : Kernel) (t : Fin TASK_NUM) (r : ℕ × Kernel) : Prop :=
  r.1 = OS_ERR_NONE ∧
    ∃ a, r.2.queued = Function.update k.queued t (k.queued t ++ [a])

/-- The call has failed; the free lists are `f` and the queues are as before. -/
def Undone (L : Layout) (k : Kernel) (f : Partition → List ℕ) (r : ℕ × Kernel) : Prop :=
  r.1 ≠ OS_ERR_NONE ∧ r.2.Lists L f ∧ r.2.QMessage = k.QMessage

/-- The queues are well formed. -/
def Kernel.Queues (k : Kernel) : Prop :=
  ∀ t, (k.QMessage t).OSQSize = MESSAGE_NUM ∧ (k.QMessage t).Queue (k.queued t)

/-- There is room in the queue `t`. -/
def Kernel.Room (k : Kernel) (t : Fin TASK_NUM) : Prop := (k.queued t).length < MESSAGE_NUM

theorem queued_congr {j : Kernel} (h : j.QMessage = k.QMessage) : j.queued = k.queued := by
  funext t
  rw [Kernel.queued, Kernel.queued, h]

theorem Kernel.Queues.congr {j : Kernel} (hq : k.Queues) (h : j.QMessage = k.QMessage) :
    j.Queues := by
  intro t
  rw [queued_congr h, h]
  exact hq t

/-- The blocks of the message at `a` are given back in the opposite order. -/
theorem run_msgFree (h : k.Lists L f) (hf : Formed L k.mem a)
    (hn : ∀ b ∈ msgBlocks k.mem a, ∀ q, b ∉ f q) :
    ∃ k', (msgFree L a).run access k = (OS_ERR_NONE, k') ∧
      k'.Lists L (push .Mem a (if Split (headLen k.mem a) then
        push (payloadPart (headLen k.mem a)) (dataPtr k.mem a) f else f)) ∧
      k'.QMessage = k.QMessage := by
  show ∃ k', (if Split (headLen k.mem a) then _ else _ : Prog sig ℕ).run access k = _ ∧ _
  by_cases hsplit : Split (headLen k.mem a)
  · obtain ⟨_, hd, hne⟩ := hf.payload hsplit
    obtain ⟨k₁, hput, hlists, hmem, hq⟩ :=
      run_memPut h hd (hn _ (dataPtr_mem hsplit) _)
    have ha : a ∉ push (payloadPart (headLen k.mem a)) (dataPtr k.mem a) f .Mem := by
      by_cases hp : Partition.Mem = payloadPart (headLen k.mem a)
      · rw [← hp, push_self]
        intro hmem
        rcases List.mem_cons.mp hmem with he | hmem
        · exact hne he.symm
        · exact hn a (mem_msgBlocks k.mem a) _ hmem
      · rw [push_of_ne hp]
        exact hn a (mem_msgBlocks k.mem a) _
    obtain ⟨k₂, hput₂, hlists₂, _, hq₂⟩ := run_memPut hlists hf.block ha
    rw [if_pos hsplit, if_pos hsplit]
    refine ⟨k₂, ?_, hlists₂, hq₂.trans hq⟩
    show (memPut L (dataPtr k.mem a) >>= fun _ => memPut L a).run access k = _
    rw [Prog.run_bind, hput]
    exact hput₂
  · rw [if_neg hsplit, if_neg hsplit]
    obtain ⟨k', hput, hlists, _, hq⟩ :=
      run_memPut h hf.block (hn a (mem_msgBlocks k.mem a) .Mem)
    exact ⟨k', hput, hlists, hq⟩

/-- With room in the queue the message is appended; otherwise it is freed. -/
theorem run_postMessage {t : Fin TASK_NUM} (hq : k.Queues) (h : k.Lists L f)
    (hf : Formed L k.mem a) (hn : ∀ b ∈ msgBlocks k.mem a, ∀ q, b ∉ f q) :
    let r := (postMessage L t a).run access k
    (k.Room t → Appended k t r) ∧
      (¬ k.Room t → Undone L k (push .Mem a (if Split (headLen k.mem a) then
        push (payloadPart (headLen k.mem a)) (dataPtr k.mem a) f else f)) r) := by
  intro r
  obtain ⟨hsize, hqueue⟩ := hq t
  constructor
  · intro hroom
    obtain ⟨pq, hpost, hrep, _⟩ := hqueue.post (by rw [hsize]; exact hroom) a
    have haccess : access (.osQPost t a) k =
        (OS_ERR_NONE, { k with QMessage := Function.update k.QMessage t pq }) := by
      simp only [access, hpost, OS_ERR_NONE]
    have hr : r = (OS_ERR_NONE, { k with QMessage := Function.update k.QMessage t pq }) := by
      simp only [r, postMessage, Prog.run_act, haccess, if_true, Prog.run_ret]
      rfl
    rw [hr]
    refine ⟨rfl, a, ?_⟩
    funext t'
    by_cases ht : t' = t
    · subst ht
      rw [Function.update_self, Kernel.queued]
      simp only [Function.update_self]
      exact hrep.messages_eq
    · rw [Function.update_of_ne ht, Kernel.queued, Kernel.queued]
      simp only [Function.update_of_ne ht]
  · intro hfull
    have hlen : (k.queued t).length = (k.QMessage t).OSQSize := by
      have hle := hqueue.le
      unfold Kernel.Room at hfull
      omega
    have hpost := hqueue.post_full hlen a
    obtain ⟨k', hfree, hlists, hq'⟩ := run_msgFree h hf hn
    have haccess : access (.osQPost t a) k = (OS_ERR_Q_FULL, k) := by
      simp only [access, hpost, Function.update_eq_self]
    have hr : r = (OS_ERR_Q_FULL, k') := by
      have herr : ¬ OS_ERR_Q_FULL = OS_ERR_NONE := by decide
      simp only [r, postMessage, Prog.run_act, haccess, if_neg herr, Prog.run_bind, hfree]
      rfl
    rw [hr]
    exact ⟨(by decide : OS_ERR_Q_FULL ≠ OS_ERR_NONE), hlists, hq'⟩

/-! ### The whole call -/

/-- Whether a payload block can be had, where one is needed. -/
def CanFill (f : Partition → List ℕ) (len : ℕ) : Prop :=
  Split len → len ≤ MEM_BIG_SIZE ∧ f (payloadPart len) ≠ []

/-- What the part behind the head comes to. -/
def Outcome (L : Layout) (k : Kernel) (f g : Partition → List ℕ) (d : Send)
    (r : ℕ × Kernel) : Prop :=
  (CanFill f d.len.toNat → k.Room d.task → Appended k d.task r) ∧
    (¬ (CanFill f d.len.toNat ∧ k.Room d.task) → Undone L k g r)

theorem Outcome.congr {j : Kernel} {g : Partition → List ℕ} {d : Send} {r : ℕ × Kernel}
    (h : Outcome L j f g d r) (hq : j.QMessage = k.QMessage) : Outcome L k f g d r := by
  have hqueued := queued_congr hq
  unfold Outcome Appended Undone Kernel.Room at h ⊢
  rw [hqueued, hq] at h
  exact h

theorem run_fill_inline {d : Send} (hq : k.Queues) (h : k.Lists L f) (ha : L.Block .Mem a)
    (hn : ∀ q, a ∉ f q) (hhead : Headed d k.mem a) (hsplit : ¬ Split d.len.toNat) :
    Outcome L k f (push .Mem a f) d
      ((fillMessage L d.task a d.pData d.len.toNat).run access k) := by
  obtain ⟨m, hcopy, hm⟩ := run_memcpy d.len.toNat (a + HEAD_SIZE) d.pData k
  have hlen : d.len.toNat ≤ MEM_SIZE - HEAD_SIZE := Nat.le_of_not_lt hsplit
  have hhead' : Headed d m a := hhead.congr fun y _ hy => hm y (Or.inl hy)
  have hnot : ¬ Split (headLen m a) := hhead'.len ▸ hsplit
  have hlists : Kernel.Lists L { k with mem := m } f := by
    apply h.inside hn
    intro y hy
    apply hm
    by_contra hc
    unfold MEM_SIZE HEAD_SIZE at *
    refine hy ⟨.Mem, ha, by omega, ?_⟩
    show y < a + 32
    omega
  have hpost := run_postMessage (t := d.task) (hq.congr (j := { k with mem := m }) rfl) hlists
    ⟨ha, fun hs => absurd hs hnot⟩ (fun b hb => by
      rw [msgBlocks, if_neg hnot] at hb
      exact List.mem_singleton.mp hb ▸ hn)
  rw [if_neg hnot] at hpost
  have hrun : (fillMessage L d.task a d.pData d.len.toNat).run access k =
      (postMessage L d.task a).run access { k with mem := m } := by
    unfold fillMessage
    rw [if_neg hsplit, Prog.run_bind, hcopy]
  rw [hrun]
  refine ⟨fun _ hroom => hpost.1 hroom, fun hno => hpost.2 fun hroom => hno ⟨?_, hroom⟩⟩
  exact fun hs => absurd hs hsplit

theorem run_fill_split {d : Send} (hq : k.Queues) (h : k.Lists L f) (ha : L.Block .Mem a)
    (hn : ∀ q, a ∉ f q) (hhead : Headed d k.mem a) (hsplit : Split d.len.toNat)
    (hsize : d.len.toNat ≤ MEM_BIG_SIZE) (hfree : f (payloadPart d.len.toNat) ≠ []) :
    Outcome L k f (push .Mem a f) d
      ((fillMessage L d.task a d.pData d.len.toNat).run access k) := by
  obtain ⟨b, g, rfl⟩ := exists_push hfree
  obtain ⟨hb, hbg⟩ := h.front
  obtain ⟨k₁, hget, hlists₁, hmem₁, hq₁⟩ := run_memGet hsize h
  have hag : ∀ q, a ∉ g q := by
    intro q hq
    by_cases he : q = payloadPart d.len.toNat
    · have := hn q
      rw [he, push_self] at this
      exact this (List.mem_cons_of_mem b (he ▸ hq))
    · have := hn q
      rw [push_of_ne he] at this
      exact this hq
  have hne : b ≠ a := by
    rintro rfl
    have := hn (payloadPart d.len.toNat)
    rw [push_self] at this
    exact this List.mem_cons_self
  -- the pointer is stored, then the payload
  have hlists₂ := hlists₁.store (ha.within_field (i := HEAD_SIZE) (n := 4) (by decide)) hag b
  have hload : load (store k₁.mem 4 (a + HEAD_SIZE) b) 4 (a + HEAD_SIZE) = b :=
    load_store_of_lt _ hb.lt
  obtain ⟨m, hcopy, hm⟩ := run_memcpy d.len.toNat b d.pData
    { k₁ with mem := store k₁.mem 4 (a + HEAD_SIZE) b }
  have hfits : d.len.toNat ≤ (payloadPart d.len.toNat).size := by
    unfold payloadPart
    split
    · assumption
    · exact hsize
  have hmb : ∀ y, ¬ L.InBlock b y → m y = store k₁.mem 4 (a + HEAD_SIZE) b y := by
    intro y hy
    apply hm
    by_contra hc
    exact hy ⟨_, hb, by omega, by omega⟩
  have hlists₃ : Kernel.Lists L { k₁ with mem := m } g := hlists₂.inside hbg hmb
  have hma : ∀ y, L.InBlock a y → m y = store k₁.mem 4 (a + HEAD_SIZE) b y :=
    fun y hy => hmb y fun hy' => hne (hy'.unique hy)
  have hhead' : Headed d m a := by
    apply hhead.congr
    intro y hy hy'
    rw [hma y ⟨.Mem, ha, hy, hy'.trans_le (Nat.add_le_add_left (by decide) a)⟩,
      store_of_outside 4 _ b _ (Or.inl hy'), hmem₁]
  have hptr : dataPtr m a = b := by
    refine (load_congr 4 _ fun i hi => ?_).trans hload
    rw [Nat.add_assoc]
    exact hma _ (ha.inBlock (show HEAD_SIZE + i < 32 by unfold HEAD_SIZE; omega))
  have hsplit' : Split (headLen m a) := hhead'.len ▸ hsplit
  have hpost := run_postMessage (t := d.task)
    (hq.congr (j := { k₁ with mem := m }) hq₁) hlists₃
    ⟨ha, fun _ => by
      rw [show headLen m a = d.len.toNat from hhead'.len, hptr]
      exact ⟨hsize, hb, hne⟩⟩ (fun c hc => by
      rw [msgBlocks, if_pos hsplit', hptr] at hc
      rcases List.mem_cons.mp hc with rfl | hc
      · exact hag
      · exact List.mem_singleton.mp hc ▸ hbg)
  rw [if_pos hsplit', show headLen m a = d.len.toNat from hhead'.len, hptr] at hpost
  have hrun : (fillMessage L d.task a d.pData d.len.toNat).run access k =
      (postMessage L d.task a).run access { k₁ with mem := m } := by
    unfold fillMessage
    rw [if_pos hsplit, Prog.run_bind, hget]
    simp only [Prog.run_act, access, hload, if_neg hb.pos.ne', Prog.run_bind, hcopy]
  rw [hrun]
  refine Outcome.congr (j := { k₁ with mem := m }) ⟨fun _ hroom => hpost.1 hroom,
    fun hno => hpost.2 fun hroom => hno ⟨fun _ => ⟨hsize, hfree⟩, hroom⟩⟩ hq₁

theorem run_fill_none {d : Send} (h : k.Lists L f) (ha : L.Block .Mem a)
    (hn : ∀ q, a ∉ f q) (hsplit : Split d.len.toNat)
    (hnone : d.len.toNat ≤ MEM_BIG_SIZE → f (payloadPart d.len.toNat) = []) :
    Outcome L k f (push .Mem a f) d
      ((fillMessage L d.task a d.pData d.len.toNat).run access k) := by
  obtain ⟨err, herr, hget⟩ := run_memGet_none h hnone
  have hlists := h.store (ha.within_field (i := HEAD_SIZE) (n := 4) (by decide)) hn 0
  obtain ⟨k', hput, hlists', _, hq⟩ := run_memPut hlists ha (hn .Mem)
  have hload : load (store k.mem 4 (a + HEAD_SIZE) 0) 4 (a + HEAD_SIZE) = 0 :=
    load_store_of_lt _ (by decide)
  have hrun : (fillMessage L d.task a d.pData d.len.toNat).run access k = (err, k') := by
    unfold fillMessage
    rw [if_pos hsplit, Prog.run_bind, hget]
    simp only [Prog.run_act, access, hload, if_true, Prog.run_bind, hput]
    rfl
  rw [hrun]
  refine ⟨fun hcan => ?_, fun _ => ⟨herr, hlists', hq⟩⟩
  obtain ⟨hsize, hfree⟩ := hcan hsplit
  exact absurd (hnone hsize) hfree

/-- The numbers of free blocks that a message of this length needs. -/
def Fits (n : Partition → ℕ) (len : ℕ) : Prop :=
  (len ≤ 24 ∧ 1 ≤ n .Mem) ∨ (25 ≤ len ∧ len ≤ 32 ∧ 2 ≤ n .Mem) ∨
    (33 ≤ len ∧ len ≤ 256 ∧ 1 ≤ n .Mem ∧ 1 ≤ n .MemBig)

theorem Fits.pos {n : Partition → ℕ} {len : ℕ} (h : Fits n len) : 0 < n .Mem := by
  unfold Fits at h
  omega

/-- One block is for the head, the others are for the payload. -/
theorem fits_push {len : ℕ} : Fits (fun p => (push .Mem a f p).length) len ↔ CanFill f len := by
  have hMem : (push .Mem a f .Mem).length = (f .Mem).length + 1 := by
    rw [push_self, List.length_cons]
  have hBig : push .Mem a f .MemBig = f .MemBig := push_of_ne (by decide)
  unfold Fits CanFill Split payloadPart MEM_BIG_SIZE MEM_SIZE HEAD_SIZE
  simp only [hMem, hBig, ← List.length_pos_iff]
  by_cases hsmall : len ≤ 32
  · rw [if_pos hsmall]
    omega
  · rw [if_neg hsmall]
    omega

/-- `MSG_Send` in one go: one message is posted, or nothing has happened. -/
theorem run_msgSend (hq : k.Queues) (h : k.Lists L f) (d : Send) :
    let r := (msgSend L d).run access k
    (Fits (fun p => (f p).length) d.len.toNat ∧ k.Room d.task → Appended k d.task r) ∧
      (¬ (Fits (fun p => (f p).length) d.len.toNat ∧ k.Room d.task) → Undone L k f r) := by
  intro r
  by_cases hfree : f .Mem = []
  · obtain ⟨err, herr, hget⟩ := run_memGet_none (n := MEM_SIZE) h fun _ => hfree
    have hr : r = (err, k) := by
      show (memGet MEM_SIZE >>= _).run access k = _
      rw [Prog.run_bind, hget]
      rfl
    rw [hr]
    refine ⟨fun ⟨hfits, _⟩ => ?_, fun _ => ⟨herr, h, rfl⟩⟩
    exact absurd hfree (List.length_pos_iff.mp hfits.pos)
  · obtain ⟨a, g, rfl⟩ := exists_push hfree
    obtain ⟨ha, hag⟩ := h.front
    obtain ⟨k₁, hget, hlists, hmem, hq₁⟩ := run_memGet (n := MEM_SIZE) (by decide) h
    have hw : ∀ i, i + 2 ≤ MEM_SIZE → L.Within a (a + i) 2 := fun i hi => ha.within_field hi
    let m := store (store (store (store k₁.mem 2 a d.message.toNat) 2 (a + 2) d.para0.toNat)
      2 (a + 4) d.para1.toNat) 2 (a + 6) d.len.toNat
    have hlists' : Kernel.Lists L { k₁ with mem := m } g :=
      (((hlists.store (hw 0 (by decide)) hag _).store (hw 2 (by decide)) hag _).store
        (hw 4 (by decide)) hag _).store (hw 6 (by decide)) hag _
    have hqueues : Kernel.Queues { k₁ with mem := m } := hq.congr hq₁
    have hr : r = (fillMessage L d.task a d.pData d.len.toNat).run access
        { k₁ with mem := m } := by
      show (memGet MEM_SIZE >>= _).run access k = _
      rw [Prog.run_bind, hget]
      show (if a = 0 then _ else _ : Prog sig ℕ).run access k₁ = _
      rw [if_neg ha.pos.ne']
      rfl
    have hhead : Headed d m a := headed_stores d k₁.mem a
    have hout : Outcome L k g (push .Mem a g) d r := by
      rw [hr]
      refine Outcome.congr ?_ (j := { k₁ with mem := m }) hq₁
      by_cases hsplit : Split d.len.toNat
      · by_cases hcan : d.len.toNat ≤ MEM_BIG_SIZE ∧ g (payloadPart d.len.toNat) ≠ []
        · exact run_fill_split hqueues hlists' ha hag hhead hsplit hcan.1 hcan.2
        · apply run_fill_none hlists' ha hag hsplit
          intro hsize
          by_contra hne
          exact hcan ⟨hsize, hne⟩
      · exact run_fill_inline hqueues hlists' ha hag hhead hsplit
    rw [fits_push]
    exact ⟨fun ⟨hcan, hroom⟩ => hout.1 hcan hroom, hout.2⟩

/-! ### In reachable states -/

variable {Tid : Type} {s : Shared Tid} {queue : Fin TASK_NUM → List ℕ} {x : Tid}

theorem Pools.queues (h : Pools L s f queue) : s.kernel.Queues := by
  intro t
  rw [h.queued_eq t]
  exact ⟨h.size t, h.rep t⟩

theorem Pools.room_of_free (h : Pools L s f queue) (hfree : f .Mem ≠ []) (t : Fin TASK_NUM) :
    s.kernel.Room t := by
  obtain ⟨b, l, hl⟩ := List.exists_cons_of_ne_nil hfree
  have hb : b ∈ f .Mem := hl ▸ List.mem_cons_self
  unfold Kernel.Room
  rw [h.queued_eq t]
  exact h.queue_room (i := .free .Mem) (h.lists.inPart .Mem b hb) hb (by simp)

/-- What a call of `MSG_Send` with the arguments `d` on the kernel objects `k` has come to. -/
structure AllOrNothing (k : Kernel) (d : Send) (r : ℕ × Kernel) : Prop where
  /-- It succeeds exactly when the pools have the blocks that the message needs. -/
  succeeds : r.1 = OS_ERR_NONE ↔ Fits (fun p => (k.part p).OSMemNFree) d.len.toNat
  /-- Then one message is appended to the queue. -/
  appends : r.1 = OS_ERR_NONE →
    ∃ a, r.2.queued = Function.update k.queued d.task (k.queued d.task ++ [a])
  /-- Otherwise the free lists and the queues are as before. -/
  undone : r.1 ≠ OS_ERR_NONE →
    (∀ p, r.2.freeList p = k.freeList p ∧
      (r.2.part p).OSMemNFree = (k.part p).OSMemNFree) ∧ r.2.QMessage = k.QMessage

/-- In every reachable state `MSG_Send`, left alone, does all of its work or nothing. -/
theorem send_all_or_nothing [DecidableEq Tid] {s : Machine Tid} (h : Reachable L s) (d : Send) :
    AllOrNothing s.shared.kernel d ((msgSend L d).run access s.shared.kernel) := by
  obtain ⟨free, queue, hp⟩ := (ok_of_reachable h).sound
  obtain ⟨hsuccess, hfailure⟩ := run_msgSend hp.queues hp.lists d
  have hcount : (fun p => (s.shared.kernel.part p).OSMemNFree) = fun p => (free p).length :=
    funext hp.lists.nfree_eq
  by_cases hfits : Fits (fun p => (free p).length) d.len.toNat
  · have hroom : s.shared.kernel.Room d.task :=
      hp.room_of_free (List.length_pos_iff.mp hfits.pos) d.task
    have happ := hsuccess ⟨hfits, hroom⟩
    exact ⟨hcount ▸ iff_of_true happ.1 hfits, fun _ => happ.2, fun hne => absurd happ.1 hne⟩
  · obtain ⟨herr, hlists, hq⟩ := hfailure fun hboth => hfits hboth.1
    refine ⟨hcount ▸ iff_of_false herr hfits, fun he => absurd he herr,
      fun _ => ⟨fun p => ?_, hq⟩⟩
    exact ⟨(hlists.freeList_eq p).trans (hp.lists.freeList_eq p).symm,
      (hlists.nfree_eq p).trans (hp.lists.nfree_eq p).symm⟩

/-- A message of 30 bytes, sent while another task holds a block. -/
theorem send_thirty_bytes :
    ∃ s, exec (Machine.step sideBySide) booted [.call .start (.get 8), .act .start, .ret .start] =
        some s ∧
      AllOrNothing s.shared.kernel ⟨1, 2, 0, 0, 4096, 30⟩
        ((msgSend sideBySide ⟨1, 2, 0, 0, 4096, 30⟩).run access s.shared.kernel) := by
  obtain ⟨s, hs⟩ := Option.isSome_iff_exists.mp (show (exec (Machine.step sideBySide) booted
    [.call .start (.get 8), .act .start, .ret .start]).isSome from rfl)
  exact ⟨s, hs, send_all_or_nothing ⟨_, _, _, hs⟩ _⟩

end Stm32Templet.Sys
