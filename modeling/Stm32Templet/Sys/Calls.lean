import Stm32Templet.Sys.Protocol

/-! # The calls keep to their specification

Every function of `Sys.Message` is safe for `callSpec`, whatever the other tasks do between
its accesses (`safe_call`).  `Call.Ready` is what a call may start from and `Call.Done` what it
returns with: a call of `MSG_Send` has posted a message with the given head and the bytes read,
or it has given back every block; `MSG_Receive` returns a complete message; `MSG_Free` and
`MEM_Put` return `OS_ERR_NONE`. -/

namespace Stm32Templet.Sys

open Memory Os Tasks Atomic

variable {L : Layout} {c : Call} {v : View} {p : Partition} {a b : ℕ}

/-! ### Giving blocks back -/

/-- The range test finds the partition of a block. -/
theorem memPut_eq (h : L.Block p b) : memPut L b = atom (.osMemPut p b) := by
  have hin : L.In p b := h.within le_rfl (Nat.lt_add_of_pos_right p.size_pos)
  unfold memPut
  cases p with
  | Mem => rw [if_pos hin]
  | MemBig =>
      rw [if_neg, if_pos hin]
      intro hm
      cases hm.unique hin

theorem safe_memPut (hv : v.seen.posted = none) (hb : b ∈ v.got) (h : L.Block p b) :
    Safe (callSpec L c) (fun r v' => r = 0 ∧ v' = { v with got := without [b] v.got })
      (memPut L b) v := by
  rw [memPut_eq h]
  refine ⟨⟨hv, hb, h⟩, ?_⟩
  rintro r ⟨got, mem, seen⟩ ⟨⟨rfl, hgot, hmem⟩, hseen⟩
  simp only at hgot hmem hseen
  subst hgot hmem hseen
  exact ⟨rfl, rfl⟩

theorem Layout.Block.within_field (h : L.Block .Mem a) {i n : ℕ} (hi : i + n ≤ MEM_SIZE) :
    L.Within a (a + i) n := by
  refine ⟨.Mem, h, Nat.le_add_right a i, ?_⟩
  show a + i + n ≤ a + MEM_SIZE
  omega

theorem safe_field {α : Type} {Q : α → View → Prop} {k : ℕ → Prog sig α}
    (hv : v.seen.posted = none) (hb : a ∈ v.got) (h : L.Block .Mem a) {i n : ℕ}
    (hi : i + n ≤ MEM_SIZE) (hn : n ≠ 1)
    (hk : Safe (callSpec L c) Q (k (load v.mem n (a + i))) v) :
    Safe (callSpec L c) Q (.act (.load n (a + i)) k) v := by
  have hw := h.within_field hi
  refine ⟨⟨fun p hp => ?_, fun _ => Or.inl ⟨hn, a, hb, hw⟩⟩, ?_⟩
  · rw [hv] at hp
    cases hp
  · rintro r ⟨got, mem, seen⟩ ⟨⟨hgot, hmem, hr⟩, hseen⟩
    obtain rfl := hr a hb hw
    simp only at hgot hmem
    simp only [Seen.after, if_neg hn] at hseen
    subst hgot hmem hseen
    exact hk

theorem safe_store {α : Type} {Q : α → View → Prop} {k : Unit → Prog sig α} {n w : ℕ}
    (hv : v.seen.posted = none) (hb : b ∈ v.got) (hw : L.Within b a n)
    (hk : Safe (callSpec L c) Q (k ()) { v with mem := store v.mem n a w }) :
    Safe (callSpec L c) Q (.act (.store n a w) k) v := by
  refine ⟨⟨hv, b, hb, hw⟩, ?_⟩
  rintro r ⟨got, mem, seen⟩ ⟨⟨hgot, hmem⟩, hseen⟩
  simp only at hgot hmem
  simp only [Seen.after] at hseen
  subst hgot hmem hseen
  exact hk

theorem safe_msgFree (hv : v.seen.posted = none) (hf : Formed L v.mem a)
    (hgot : v.got.Perm (msgBlocks v.mem a)) :
    Safe (callSpec L c) (fun r v' => r = 0 ∧ v'.got = [] ∧ v'.seen = v.seen) (msgFree L a) v := by
  have ha : a ∈ v.got := hgot.mem_iff.mpr (mem_msgBlocks v.mem a)
  unfold msgFree
  apply safe_field hv ha hf.block (by decide) (by decide)
  show Safe _ _ (if Split (headLen v.mem a) then _ else _) v
  unfold msgBlocks at hgot
  split
  · rename_i hsplit
    obtain ⟨_, hd, hne⟩ := hf.payload hsplit
    rw [if_pos hsplit] at hgot
    apply safe_field hv ha hf.block (by decide) (by decide)
    show Safe _ _ (memPut L (dataPtr v.mem a) >>= fun _ => memPut L a) v
    have hmem : dataPtr v.mem a ∈ v.got := hgot.mem_iff.mpr (by simp)
    refine (safe_memPut hv hmem hd).bind ?_
    rintro _ _ ⟨rfl, rfl⟩
    have ha' : a ∈ without [dataPtr v.mem a] v.got := by
      simpa [without] using And.intro ha hne.symm
    refine (safe_memPut (v := { v with got := without [dataPtr v.mem a] v.got }) hv ha'
      hf.block).mono ?_
    rintro r _ ⟨rfl, rfl⟩
    refine ⟨rfl, ?_, rfl⟩
    -- nothing but the two blocks was there
    apply List.eq_nil_iff_forall_not_mem.mpr
    intro x hx
    simp only [without, List.mem_filter, decide_eq_true_eq, List.mem_singleton] at hx
    have hx' := hgot.mem_iff.mp hx.1.1
    simp only [List.mem_cons, List.not_mem_nil, or_false] at hx'
    rcases hx' with rfl | rfl
    · exact hx.2 rfl
    · exact hx.1.2 rfl
  · rename_i hsplit
    rw [if_neg hsplit] at hgot
    refine (safe_memPut hv ha hf.block).mono ?_
    rintro r _ ⟨rfl, rfl⟩
    refine ⟨rfl, ?_, rfl⟩
    rw [List.perm_singleton.mp hgot]
    simp [without]

/-! ### Taking blocks -/

/-- What `MEM_Get` leaves behind. -/
def Taken (L : Layout) (v : View) (size : ℕ) (r : ℕ × ℕ) (v' : View) : Prop :=
  (r.2 = 0 ∧ size ≤ MEM_BIG_SIZE ∧ L.Block (payloadPart size) r.1 ∧ r.1 ∉ v.got ∧
    Same L v.mem v'.mem v.got ∧ v'.got = r.1 :: v.got ∧ v'.seen = v.seen) ∨
  (r.1 = 0 ∧ r.2 ≠ 0 ∧ v'.got = v.got ∧ v'.mem = v.mem ∧
    (v'.seen = { v.seen with refused := true } ∨ size > MEM_BIG_SIZE ∧ v'.seen = v.seen))

theorem safe_osMemGet (hv : v.seen.posted = none) {size : ℕ} (hsize : size ≤ MEM_BIG_SIZE) :
    Safe (callSpec L c) (Taken L v size) (atom (.osMemGet (payloadPart size))) v := by
  refine ⟨hv, ?_⟩
  rintro ⟨r, err⟩ v' ⟨hr | hr, hseen⟩
  · obtain ⟨rfl, hblock, hnot, hsame, hgot⟩ := hr
    exact Or.inl ⟨rfl, hsize, hblock, hnot, hsame, hgot, hseen⟩
  · obtain ⟨he, hgot, hmem⟩ := hr
    cases he
    exact Or.inr ⟨rfl, by decide, hgot, hmem, Or.inl hseen⟩

theorem safe_memGet (hv : v.seen.posted = none) (size : ℕ) :
    Safe (callSpec L c) (Taken L v size) (memGet size) v := by
  unfold memGet
  split
  · rename_i h
    have hpart : payloadPart size = .Mem := if_pos h
    exact hpart ▸ safe_osMemGet hv (h.trans (by decide))
  · rename_i h
    have hpart : payloadPart size = .MemBig := if_neg h
    split
    · rename_i hbig
      exact hpart ▸ safe_osMemGet hv hbig
    · rename_i hbig
      exact Or.inr ⟨rfl, by decide, rfl, rfl, Or.inr ⟨Nat.lt_of_not_le hbig, rfl⟩⟩

/-! ### Copying the payload -/

/-- What `memcpy` has done: `n` bytes were read and stand at `dst`, nothing else has changed. -/
structure Copied (v : View) (dst n : ℕ) (v' : View) : Prop where
  got : v'.got = v.got
  outside : ∀ y, y < dst ∨ dst + n ≤ y → v'.mem y = v.mem y
  seen : v'.seen = { v.seen with read := v.seen.read ++ bytes v'.mem dst n }

theorem bytes_cons (m : Mem) (a n : ℕ) : bytes m a (n + 1) = m a :: bytes m (a + 1) n := by
  unfold bytes
  rw [List.range_succ_eq_map, List.map_cons, List.map_map, Nat.add_zero]
  congr 1
  refine List.map_congr_left fun i _ => ?_
  show m (a + (i + 1)) = m (a + 1 + i)
  rw [Nat.add_right_comm, Nat.add_assoc]

theorem Layout.Within.initial {n k i : ℕ} (h : L.Within b a n) (hi : i + k ≤ n) :
    L.Within b (a + i) k := by
  obtain ⟨p, hp, h₁, h₂⟩ := h
  exact ⟨p, hp, by omega, by omega⟩

/-- The induction is on the number of bytes left. -/
theorem safe_memcpy {d : Send} (hc : c = .send d) : ∀ (n dst : ℕ) (v : View),
    v.seen.posted = none → b ∈ v.got → L.Within b dst n →
    v.seen.read.length + n = d.len.toNat →
    Safe (callSpec L c) (fun _ v' => Copied v dst n v')
      (memcpy dst (d.pData + v.seen.read.length) n) v := by
  intro n
  induction n with
  | zero =>
      intro dst v _ _ _ _
      refine ⟨rfl, fun _ _ => rfl, ?_⟩
      show v.seen = { v.seen with read := v.seen.read ++ [] }
      rw [List.append_nil]
  | succ n ih =>
      intro dst v hv hb hw hn
      unfold memcpy
      refine ⟨⟨fun p hp => ?_, fun _ => Or.inr ⟨rfl, d, hc, by omega, rfl⟩⟩, ?_⟩
      · rw [hv] at hp
        cases hp
      rintro r ⟨got, mem, seen⟩ ⟨⟨hgot, hmem, _⟩, hseen⟩
      simp only at hgot hmem
      simp only [Seen.after, if_true] at hseen
      subst hgot hmem hseen
      have hone : L.Within b dst 1 := hw.initial (i := 0) (by omega)
      refine safe_store
        (v := ⟨v.got, v.mem, { v.seen with read := v.seen.read ++ [UInt8.ofNat r] }⟩) hv hb hone ?_
      have hrest : L.Within b (dst + 1) n := hw.initial (by omega)
      have hstep := ih (dst + 1) ⟨v.got, store v.mem 1 dst r,
        { v.seen with read := v.seen.read ++ [UInt8.ofNat r] }⟩ hv hb hrest
        (by simp only [List.length_append, List.length_singleton]; omega)
      simp only [List.length_append, List.length_singleton, ← Nat.add_assoc] at hstep
      refine hstep.mono ?_
      intro _ v' hcopied
      have hfirst : v'.mem dst = UInt8.ofNat r := by
        rw [hcopied.outside dst (Or.inl (Nat.lt_succ_self dst))]
        exact Function.update_self dst _ _
      refine ⟨hcopied.got, fun y hy => ?_, ?_⟩
      · rw [hcopied.outside y (by omega)]
        exact store_of_outside 1 dst r v.mem (by omega)
      · rw [hcopied.seen, bytes_cons, hfirst]
        simp only [List.append_assoc, List.singleton_append]

/-! ### Sending -/

/-- The head of the message at `a` is the one that `d` asks for. -/
structure Headed (d : Send) (m : Mem) (a : ℕ) : Prop where
  message : load m 2 a = d.message.toNat
  para0 : load m 2 (a + 2) = d.para0.toNat
  para1 : load m 2 (a + 4) = d.para1.toNat
  len : headLen m a = d.len.toNat

theorem Headed.congr {d : Send} {m m' : Mem} (h : Headed d m a)
    (hm : ∀ y, a ≤ y → y < a + HEAD_SIZE → m' y = m y) : Headed d m' a := by
  have hload : ∀ i, i + 2 ≤ HEAD_SIZE → load m' 2 (a + i) = load m 2 (a + i) := by
    intro i hi
    apply load_congr
    intro k hk
    exact hm _ (by omega) (by omega)
  exact ⟨(hload 0 (by decide)).trans h.message, (hload 2 (by decide)).trans h.para0,
    (hload 4 (by decide)).trans h.para1, (hload 6 (by decide)).trans h.len⟩

/-- The four stores of `MSG_Send` write the head. -/
theorem headed_stores (d : Send) (m : Mem) (a : ℕ) :
    Headed d (store (store (store (store m 2 a d.message.toNat) 2 (a + 2) d.para0.toNat)
      2 (a + 4) d.para1.toNat) 2 (a + 6) d.len.toNat) a := by
  have hlt : ∀ n : UInt16, n.toNat < 256 ^ 2 := fun n => n.toNat_lt
  refine ⟨?_, ?_, ?_, load_store_of_lt _ (hlt _)⟩
  · rw [load_store_of_disjoint _ _ (by omega), load_store_of_disjoint _ _ (by omega),
      load_store_of_disjoint _ _ (by omega), load_store_of_lt _ (hlt _)]
  · rw [load_store_of_disjoint _ _ (by omega), load_store_of_disjoint _ _ (by omega),
      load_store_of_lt _ (hlt _)]
  · rw [load_store_of_disjoint _ _ (by omega), load_store_of_lt _ (hlt _)]

/-- How `MSG_Send` ends. -/
def Sent (d : Send) (err : ℕ) (v : View) : Prop :=
  v.got = [] ∧ v.seen.accepted = none ∧
    ((err = 0 ∧ v.seen.posted.isSome ∧ v.seen.refused = false) ∨
      (err ≠ 0 ∧ v.seen.posted = none ∧ (v.seen.refused = true ∨ d.len.toNat > MEM_BIG_SIZE)))

theorem safe_postMessage {d : Send} (hc : c = .send d) (hv : v.seen.posted = none)
    (hr : v.seen.refused = false) (hacc : v.seen.accepted = none)
    (hmsg : decode v.mem a = d.msg v.seen.read) (hf : Formed L v.mem a)
    (hgot : v.got.Perm (msgBlocks v.mem a)) :
    Safe (callSpec L c) (Sent d) (postMessage L d.task a) v := by
  refine ⟨⟨hv, hr, ⟨d, hc, rfl, hmsg⟩, hf, hgot⟩, ?_⟩
  rintro r ⟨got, mem, seen⟩ ⟨⟨hmem, heff⟩, hseen⟩
  simp only at hmem heff hseen
  subst hmem hseen
  rcases heff with ⟨rfl, rfl⟩ | ⟨rfl, rfl⟩
  · -- the message is gone, its first field is read all the same
    refine ⟨⟨?_, ?_⟩, ?_⟩
    · rintro p ⟨⟩
      exact ⟨rfl, rfl⟩
    · rintro ⟨⟩
    · rintro r ⟨got, mem, seen⟩ ⟨⟨hgot', hmem', _⟩, hseen'⟩
      simp only at hgot' hmem' hseen'
      subst hgot' hmem' hseen'
      exact ⟨rfl, hacc, Or.inl ⟨rfl, rfl, hr⟩⟩
  · show Safe _ _ (msgFree L a >>= fun _ => .ret OS_ERR_Q_FULL) _
    refine (safe_msgFree
      (v := ⟨v.got, v.mem, v.seen.after v.mem (.osQPost d.task a) OS_ERR_Q_FULL⟩) hv hf
      hgot).bind ?_
    rintro _ v' ⟨_, hgot', hseen'⟩
    refine ⟨hgot', ?_, Or.inr ⟨by decide, ?_, Or.inl ?_⟩⟩
    · rw [hseen']
      exact hacc
    · rw [hseen']
      exact hv
    · rw [hseen']
      rfl

/-- A message block with its head, and nothing sent or read yet. -/
structure Filling (L : Layout) (d : Send) (a : ℕ) (v : View) : Prop where
  block : L.Block .Mem a
  got : v.got = [a]
  headed : Headed d v.mem a
  seen : v.seen = Seen.start

theorem decode_of_headed {d : Send} {m : Mem} {payload : List UInt8} (h : Headed d m a)
    (hp : bytes m (if Split d.len.toNat then dataPtr m a else a + HEAD_SIZE) d.len.toNat =
      payload) : decode m a = d.msg payload := by
  unfold decode Send.msg
  rw [h.message, h.para0, h.para1, h.len, hp]

/-- The payload goes into the message block. -/
theorem safe_fill_inline {d : Send} (hc : c = .send d) (h : Filling L d a v)
    (hsplit : ¬ Split d.len.toNat) :
    Safe (callSpec L c) (Sent d) (fillMessage L d.task a d.pData d.len.toNat) v := by
  unfold fillMessage
  rw [if_neg hsplit]
  have hread : v.seen.read = [] := by rw [h.seen]; rfl
  have hlen : d.len.toNat ≤ MEM_SIZE - HEAD_SIZE := Nat.le_of_not_lt hsplit
  have hcopy := safe_memcpy (L := L) (b := a) hc d.len.toNat (a + HEAD_SIZE) v
    (by rw [h.seen]; rfl) (by rw [h.got]; exact List.mem_cons_self)
    (h.block.within_field (Nat.add_le_of_le_sub' (by decide) hlen))
    (by rw [hread]; exact Nat.zero_add _)
  rw [hread] at hcopy
  refine hcopy.bind ?_
  intro _ v' hcopied
  have hhead : Headed d v'.mem a := h.headed.congr fun y _ hy => hcopied.outside y (Or.inl hy)
  have hnot : ¬ Split (headLen v'.mem a) := hhead.len ▸ hsplit
  have hseen := hcopied.seen
  rw [h.seen] at hseen
  apply safe_postMessage hc
  · rw [hseen]
    rfl
  · rw [hseen]
    rfl
  · rw [hseen]
    rfl
  · apply decode_of_headed hhead
    rw [hseen, if_neg hsplit]
    rfl
  · exact ⟨h.block, fun hs => absurd hs hnot⟩
  · unfold msgBlocks
    rw [if_neg hnot, hcopied.got, h.got]

/-- The payload goes into a block of its own. -/
theorem safe_copy_split {d : Send} {b : ℕ} (hc : c = .send d) (hblock : L.Block .Mem a)
    (hgot : v.got = [b, a]) (hhead : Headed d v.mem a) (hseen : v.seen = Seen.start)
    (hsplit : Split d.len.toNat) (hsize : d.len.toNat ≤ MEM_BIG_SIZE)
    (hb : L.Block (payloadPart d.len.toNat) b) (hne : b ≠ a) (hptr : dataPtr v.mem a = b) :
    Safe (callSpec L c) (Sent d)
      (memcpy b d.pData d.len.toNat >>= fun _ => postMessage L d.task a) v := by
  have hread : v.seen.read = [] := by rw [hseen]; rfl
  have hfits : d.len.toNat ≤ (payloadPart d.len.toNat).size := by
    unfold payloadPart
    split
    · assumption
    · exact hsize
  have hw : L.Within b b d.len.toNat := ⟨_, hb, le_rfl, Nat.add_le_add_left hfits b⟩
  have hcopy := safe_memcpy (L := L) (b := b) hc d.len.toNat b v (by rw [hseen]; rfl)
    (by rw [hgot]; exact List.mem_cons_self) hw (by rw [hread]; exact Nat.zero_add _)
  rw [hread] at hcopy
  refine hcopy.bind ?_
  intro _ v' hcopied
  -- the message block is not written to
  have hsame : ∀ y, L.InBlock a y → v'.mem y = v.mem y := by
    intro y hy
    apply hcopied.outside
    by_contra hn
    exact hne (Layout.InBlock.unique ⟨_, hb, by omega, by omega⟩ hy)
  have hfield : ∀ i, i < MEM_SIZE → L.InBlock a (a + i) := fun i hi => hblock.inBlock hi
  have hhead' : Headed d v'.mem a := by
    apply hhead.congr
    intro y hy hy'
    obtain ⟨i, rfl⟩ := Nat.exists_eq_add_of_le hy
    exact hsame _ (hfield i (lt_trans (Nat.lt_of_add_lt_add_left hy') (by decide)))
  have hptr' : dataPtr v'.mem a = b := by
    refine (load_congr 4 _ fun i hi => ?_).trans hptr
    rw [Nat.add_assoc]
    exact hsame _ (hfield _ (by unfold HEAD_SIZE MEM_SIZE; omega))
  have hsplit' : Split (headLen v'.mem a) := hhead'.len ▸ hsplit
  have hseen' := hcopied.seen
  rw [hseen] at hseen'
  apply safe_postMessage hc
  · rw [hseen']
    rfl
  · rw [hseen']
    rfl
  · rw [hseen']
    rfl
  · apply decode_of_headed hhead'
    rw [hseen', if_pos hsplit, hptr']
    rfl
  · refine ⟨hblock, fun _ => ?_⟩
    rw [hhead'.len, hptr']
    exact ⟨hsize, hb, hne⟩
  · unfold msgBlocks
    rw [if_pos hsplit', hptr', hcopied.got, hgot]
    exact List.Perm.swap a b []

theorem safe_fill_split {d : Send} (hc : c = .send d) (h : Filling L d a v)
    (hsplit : Split d.len.toNat) :
    Safe (callSpec L c) (Sent d) (fillMessage L d.task a d.pData d.len.toNat) v := by
  unfold fillMessage
  rw [if_pos hsplit]
  refine (safe_memGet (by rw [h.seen]; rfl) d.len.toNat).bind ?_
  rintro ⟨b, err⟩ v' (htaken | hrefused)
  · obtain ⟨rfl, hsize, hb, hnot, hsame, hgot, hseen⟩ := htaken
    rw [h.got] at hgot hnot hsame
    rw [h.seen] at hseen
    have hne : b ≠ a := by simpa using hnot
    have hposted : v'.seen.posted = none := by rw [hseen]; rfl
    have ha : a ∈ v'.got := by rw [hgot]; simp
    have hhead : Headed d v'.mem a := by
      apply h.headed.congr
      intro y hy hy'
      exact (hsame a List.mem_cons_self y ⟨.Mem, h.block, hy, hy'.trans_le
        (Nat.add_le_add_left (by decide) a)⟩).symm
    apply safe_store hposted ha (h.block.within_field (by decide))
    -- the pointer that was stored is read twice
    have hload : load (store v'.mem 4 (a + HEAD_SIZE) b) 4 (a + HEAD_SIZE) = b :=
      load_store_of_lt _ hb.lt
    refine safe_field (v := { v' with mem := store v'.mem 4 (a + HEAD_SIZE) b }) hposted ha
      h.block (by decide) (by decide) ?_
    rw [hload, if_neg hb.pos.ne']
    refine safe_field (v := { v' with mem := store v'.mem 4 (a + HEAD_SIZE) b }) hposted ha
      h.block (by decide) (by decide) ?_
    rw [hload]
    refine safe_copy_split hc h.block hgot ?_ hseen hsplit hsize hb hne hload
    apply hhead.congr
    intro y _ hy
    exact store_of_outside 4 _ b _ (Or.inl hy)
  · obtain ⟨hb, herr, hgot, hmem, hseen⟩ := hrefused
    simp only at hb herr
    subst hb
    rw [h.got] at hgot
    have hposted : v'.seen.posted = none := by
      rcases hseen with hs | ⟨_, hs⟩ <;> rw [hs, h.seen] <;> rfl
    have ha : a ∈ v'.got := by rw [hgot]; exact List.mem_cons_self
    apply safe_store hposted ha (h.block.within_field (by decide))
    have hload : load (store v'.mem 4 (a + HEAD_SIZE) 0) 4 (a + HEAD_SIZE) = 0 :=
      load_store_of_lt _ (by decide)
    refine safe_field (v := { v' with mem := store v'.mem 4 (a + HEAD_SIZE) 0 }) hposted ha
      h.block (by decide) (by decide) ?_
    rw [hload, if_pos rfl]
    refine (safe_memPut (v := { v' with mem := store v'.mem 4 (a + HEAD_SIZE) 0 }) hposted ha
      h.block).bind ?_
    rintro _ _ ⟨rfl, rfl⟩
    refine ⟨?_, ?_, Or.inr ⟨herr, hposted, ?_⟩⟩
    · show without [a] v'.got = []
      rw [hgot]
      simp [without]
    · rcases hseen with hs | ⟨_, hs⟩ <;> rw [hs, h.seen] <;> rfl
    · rcases hseen with hs | ⟨hbig, _⟩
      · exact Or.inl (by rw [hs])
      · exact Or.inr hbig

theorem safe_msgSend {d : Send} (hc : c = .send d) (hgot : v.got = [])
    (hseen : v.seen = Seen.start) : Safe (callSpec L c) (Sent d) (msgSend L d) v := by
  unfold msgSend
  refine (safe_memGet (by rw [hseen]; rfl) MEM_SIZE).bind ?_
  rintro ⟨a, err⟩ v' (htaken | hrefused)
  · obtain ⟨rfl, _, hblock, _, _, hgot', hseen'⟩ := htaken
    have hpart : L.Block .Mem a := hblock
    rw [hgot] at hgot'
    rw [hseen] at hseen'
    have hposted : v'.seen.posted = none := by rw [hseen']; rfl
    have ha : a ∈ v'.got := by rw [hgot']; exact List.mem_cons_self
    show Safe _ _ (if a = 0 then _ else _) v'
    rw [if_neg hpart.pos.ne']
    apply safe_store hposted ha (hpart.within_field (i := 0) (by decide))
    refine safe_store (v := ⟨v'.got, _, v'.seen⟩) hposted ha (hpart.within_field (by decide)) ?_
    refine safe_store (v := ⟨v'.got, _, v'.seen⟩) hposted ha (hpart.within_field (by decide)) ?_
    refine safe_store (v := ⟨v'.got, _, v'.seen⟩) hposted ha (hpart.within_field (by decide)) ?_
    by_cases hsplit : Split d.len.toNat
    · exact safe_fill_split hc ⟨hpart, hgot', headed_stores d v'.mem a, hseen'⟩ hsplit
    · exact safe_fill_inline hc ⟨hpart, hgot', headed_stores d v'.mem a, hseen'⟩ hsplit
  · obtain ⟨hb, herr, hgot', _, hseen'⟩ := hrefused
    simp only at hb herr
    subst hb
    rw [hseen] at hseen'
    refine ⟨hgot'.trans hgot, ?_, Or.inr ⟨herr, ?_, Or.inl ?_⟩⟩
    · rcases hseen' with hs | ⟨_, hs⟩ <;> rw [hs] <;> rfl
    · rcases hseen' with hs | ⟨_, hs⟩ <;> rw [hs] <;> rfl
    · rcases hseen' with hs | ⟨hbig, _⟩
      · rw [hs]
      · exact absurd hbig (by decide)

/-! ### Receiving -/

/-- How `MSG_Receive` ends. -/
def Received (L : Layout) (pMessage : ℕ) (v : View) : Prop :=
  v.seen.posted = none ∧
    ((pMessage = 0 ∧ v.got = [] ∧ v.seen.accepted = none) ∨
      (pMessage ≠ 0 ∧ Formed L v.mem pMessage ∧ v.got = msgBlocks v.mem pMessage ∧
        v.seen.accepted = some (decode v.mem pMessage)))

theorem safe_msgReceive {t : Fin TASK_NUM} (hc : c = .receive t) (hgot : v.got = [])
    (hseen : v.seen = Seen.start) : Safe (callSpec L c) (Received L) (msgReceive t) v := by
  have hposted : v.seen.posted = none := by rw [hseen]; rfl
  refine ⟨⟨hposted, by rw [hseen]; rfl, hgot, hc⟩, ?_⟩
  rintro ⟨a, err⟩ v' ⟨heff, hseen'⟩
  rcases heff with ⟨rfl, hf, hgot'⟩ | ⟨he, hgot', hmem⟩
  · rw [hseen] at hseen'
    show Safe _ _ (if a = 0 then _ else _) v'
    rw [if_neg hf.block.pos.ne']
    have ha : a ∈ v'.got := by
      rw [hgot']
      exact mem_msgBlocks v'.mem a
    refine safe_field (i := 0) (by rw [hseen']; rfl) ha hf.block (by decide) (by decide) ?_
    refine ⟨by rw [hseen']; rfl, Or.inr ⟨hf.block.pos.ne', hf, hgot', by rw [hseen']; rfl⟩⟩
  · cases he
    rw [hseen] at hseen'
    exact ⟨by rw [hseen']; rfl, Or.inl ⟨rfl, hgot'.trans hgot, by rw [hseen']; rfl⟩⟩

/-! ### All calls -/

/-- What a call may start from. -/
def Call.Ready (L : Layout) : Call → View → Prop
  | .free pMessage, v => Formed L v.mem pMessage ∧ v.got.Perm (msgBlocks v.mem pMessage)
  | .put pblk, v => L.IsBlock pblk ∧ v.got = [pblk]
  | _, v => v.got = []

/-- What a call returns with. -/
def Call.Done (L : Layout) : Call → ℕ × ℕ → View → Prop
  | .send d, r, v => Sent d r.2 v
  | .receive _, r, v => Received L r.1 v
  | .free _, r, v => r.2 = 0 ∧ v.got = [] ∧ v.seen = Seen.start
  | .get size, r, v => v.seen.posted = none ∧ v.seen.accepted = none ∧
      ((r.1 = 0 ∧ r.2 ≠ 0 ∧ v.got = []) ∨
        (r.2 = 0 ∧ L.Block (payloadPart size.toNat) r.1 ∧ v.got = [r.1]))
  | .put _, r, v => r.2 = 0 ∧ v.got = [] ∧ v.seen = Seen.start

theorem safe_call (c : Call) (h : c.Ready L v) (hseen : v.seen = Seen.start) :
    Safe (callSpec L c) (c.Done L) (c.prog L) v := by
  have hposted : v.seen.posted = none := by rw [hseen]; rfl
  cases c with
  | send d => exact (safe_msgSend rfl h hseen).bind fun _ _ hs => hs
  | receive t => exact (safe_msgReceive rfl h hseen).bind fun _ _ hr => hr
  | free pMessage =>
      refine (safe_msgFree hposted h.1 h.2).bind ?_
      rintro r v' ⟨rfl, hgot, hseen'⟩
      exact ⟨rfl, hgot, hseen'.trans hseen⟩
  | get size =>
      refine (safe_memGet hposted size.toNat).mono ?_
      rintro r v' (⟨hr, _, hblock, _, _, hgot, hs⟩ | ⟨hr, herr, hgot, _, hs⟩)
      · rw [hseen] at hs
        refine ⟨by rw [hs]; rfl, by rw [hs]; rfl, Or.inr ⟨hr, hblock, ?_⟩⟩
        rw [hgot, show v.got = [] from h]
      · rw [hseen] at hs
        refine ⟨?_, ?_, Or.inl ⟨hr, herr, hgot.trans h⟩⟩
        · rcases hs with hs | ⟨_, hs⟩ <;> rw [hs] <;> rfl
        · rcases hs with hs | ⟨_, hs⟩ <;> rw [hs] <;> rfl
  | put pblk =>
      obtain ⟨⟨p, hp⟩, hgot⟩ := h
      refine (safe_memPut hposted (by rw [hgot]; exact List.mem_cons_self) hp).bind ?_
      rintro r _ ⟨rfl, rfl⟩
      refine ⟨rfl, ?_, hseen⟩
      show without [pblk] v.got = []
      rw [hgot]
      simp [without]

end Stm32Templet.Sys
