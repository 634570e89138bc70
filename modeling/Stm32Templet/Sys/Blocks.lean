import Stm32Templet.Os.Query
import Stm32Templet.Sys.Invariant

/-! # Routines that work with small blocks

A routine takes blocks with `MEM_Get`, uses them and puts them back with `MEM_Put`, while any
other tasks take and put back blocks of theirs, write to memory and use the queues between its
accesses (`Routine.step`).

`Proper` says what a routine may do: it stays within the blocks that it has at this moment,
apart from memory that it is given to read, and puts back only those.  A program that is safe
for this and ends without a block (`blockSpec`) accounts for all of them in every interleaving
(`accounted_of_safe`).  The tasks of `Machine` are such other tasks (`step_allowed`). -/

namespace Stm32Templet.Sys

open Memory Os Tasks Atomic Runs

/-! ### Accesses -/

/-- What a routine does besides the accesses of `Act`. -/
inductive Query where
  | osQQuery (t : Fin TASK_NUM) (p_q_data : ℕ)
  /-- The critical section of `OSMemQuery`. -/
  | osMemQuery (p : Partition) (p_mem_data : ℕ)
  /-- A byte goes to the transmit ring; the result says whether that is full then. -/
  | storeSend (b : UInt8)

abbrev Query.Res : Query → Type
  | osQQuery _ _ => ℕ
  | osMemQuery _ _ => Unit
  | storeSend _ => Bool

abbrev blockSig : Sig := sig.sum ⟨Query, Query.Res⟩

/-- Effect of one access, `event` being the event control blocks of the queues and `full` what
the test of the transmit ring gives. -/
def blockAccess (event : Fin TASK_NUM → OsEvent) (full : Bool) :
    (a : blockSig.Act) → Kernel → blockSig.Res a × Kernel
  | .inl a, k => access a k
  | .inr (.osQQuery t p_q_data), k =>
      let r := osQQuery (event t) (k.QMessage t) p_q_data k.mem
      (r.1, { k with mem := r.2 })
  | .inr (.osMemQuery p p_mem_data), k =>
      ((), { k with mem := osMemQuery (k.part p) p_mem_data k.mem })
  | .inr (.storeSend _), k => (full, k)

/-- The access stays within the blocks `held` and the bytes that `arg` allows to read, and
nothing but a small block is taken, or a block of `held` put back. -/
def Proper (L : Layout) (arg : ℕ → Prop) (held : List ℕ) : blockSig.Act → Prop
  | .inl (.load n a) => (∃ b ∈ held, L.Within b a n) ∨ ∀ i < n, arg (a + i)
  | .inl (.store n a _) => ∃ b ∈ held, L.Within b a n
  | .inl (.osMemGet p) => p = .Mem
  | .inl (.osMemPut p b) => b ∈ held ∧ L.Block p b
  | .inl (.osQPost _ _) => False
  | .inl (.osQAccept _) => False
  | .inr (.osQQuery _ p_q_data) => ∃ b ∈ held, L.Within b p_q_data OS_Q_DATA_SIZE
  | .inr (.osMemQuery _ p_mem_data) => ∃ b ∈ held, L.Within b p_mem_data OS_MEM_DATA_SIZE
  | .inr (.storeSend _) => True

/-! ### Runs -/

/-- The blocks that a routine has, those it has obtained and those it has put back up to now,
the last one first. -/
structure Ledger where
  held : List ℕ
  obtained : List ℕ
  returned : List ℕ

/-- The ledger after an access with its result. -/
def Ledger.note (l : Ledger) : (a : blockSig.Act) → blockSig.Res a → Ledger
  | .inl (.osMemGet _), r =>
      if r.2 = OS_ERR_NONE then
        { l with held := r.1 :: l.held, obtained := r.1 :: l.obtained }
      else l
  | .inl (.osMemPut _ b), (r : ℕ) =>
      if r = OS_ERR_NONE then { l with held := l.held.erase b, returned := b :: l.returned }
      else l
  | _, _ => l

/-- What is left of a routine, and the kernel objects it works on. -/
structure Routine (α : Type) where
  kernel : Kernel
  prog : Prog blockSig α
  ledger : Ledger

def Routine.start {α : Type} (p : Prog blockSig α) (k : Kernel) : Routine α := ⟨k, p, [], [], []⟩

/-- The blocks that no other task may touch while `held` are in use. -/
def Kernel.reserved (k : Kernel) (held : List ℕ) : List ℕ :=
  held ++ k.freeList .Mem ++ k.freeList .MemBig

/-- What other tasks may do: they write neither to the blocks of the routine nor to free ones,
and put back neither of them. -/
def Allowed (L : Layout) (held : List ℕ) (k : Kernel) : Act → Prop
  | .store n a _ => ∀ i < n, ∀ b ∈ k.reserved held, ¬ L.InBlock b (a + i)
  | .osMemPut p b => L.Block p b ∧ b ∉ k.reserved held
  | _ => True

instance (L : Layout) (held : List ℕ) (k : Kernel) : (a : Act) → Decidable (Allowed L held k a)
  | .load _ _ => isTrue trivial
  | .store _ _ _ => inferInstanceAs (Decidable (∀ i < _, ∀ b ∈ _, ¬ _))
  | .osMemGet _ => isTrue trivial
  | .osMemPut _ _ => inferInstanceAs (Decidable (_ ∧ _))
  | .osQPost _ _ => isTrue trivial
  | .osQAccept _ => isTrue trivial

/-- The routine makes its next access, or another task makes one. -/
inductive Turn where
  | own (full : Bool)
  | other (a : Act)

variable {α : Type}

def Routine.step (L : Layout) (event : Fin TASK_NUM → OsEvent) (s : Routine α) :
    Turn → Option (Routine α)
  | .own full =>
      match s.prog with
      | .act a k =>
          let r := blockAccess event full a s.kernel
          some ⟨r.2, k r.1, s.ledger.note a r.1⟩
      | .ret _ => none
  | .other a =>
      if Allowed L s.ledger.held s.kernel a then
        some { s with kernel := (access a s.kernel).2 }
      else none

variable {L : Layout} {event : Fin TASK_NUM → OsEvent} {s s' : Routine α}

theorem step_own {full : Bool} (h : s.step L event (.own full) = some s') :
    ∃ a f, s.prog = .act a f ∧ s'.kernel = (blockAccess event full a s.kernel).2 ∧
      s'.prog = f (blockAccess event full a s.kernel).1 ∧
      s'.ledger = s.ledger.note a (blockAccess event full a s.kernel).1 := by
  simp only [Routine.step] at h
  split at h
  · rename_i a f hprog
    obtain rfl := Option.some.inj h
    exact ⟨a, f, hprog, rfl, rfl, rfl⟩
  · cases h

theorem step_other_task {a : Act} (h : s.step L event (.other a) = some s') :
    Allowed L s.ledger.held s.kernel a ∧ s' = { s with kernel := (access a s.kernel).2 } := by
  simp only [Routine.step, Option.ite_none_right_eq_some, Option.some.injEq] at h
  exact ⟨h.1, h.2.symm⟩

section Turns

variable {run : ℕ → Routine α} {turn : ℕ → Turn}
  (h : ∀ n, (run n).step L event (turn n) = some (run (n + 1)))

include h

theorem prog_of_others {N n : ℕ} (hn : N ≤ n)
    (hother : ∀ i, N ≤ i → i < n → ∃ a, turn i = .other a) : (run n).prog = (run N).prog := by
  induction n, hn using Nat.le_induction with
  | base => rfl
  | succ n hn ih =>
      obtain ⟨a, ha⟩ := hother n hn (Nat.lt_succ_self n)
      have hstep := h n
      rw [ha] at hstep
      rw [(step_other_task hstep).2]
      exact ih fun i hi hi' => hother i hi (hi'.trans (Nat.lt_succ_self n))

/-- A routine has only finitely many turns, so it returns if it gets them. -/
theorem finitely_many_turns : ∃ N, ∀ n, N ≤ n → ∃ a, turn n = .other a := by
  classical
  -- the induction is on what is left of the program at some moment
  suffices ∀ p N, (run N).prog = p → ∃ N, ∀ n, N ≤ n → ∃ a, turn n = .other a from
    this _ 0 rfl
  have hnext : ∀ N, (∀ n, N ≤ n → ∃ a, turn n = .other a) ∨
      ∃ n full, turn n = .own full ∧ (run n).prog = (run N).prog := by
    intro N
    by_cases hown : ∃ n, N ≤ n ∧ ∃ full, turn n = .own full
    · obtain ⟨hn, full, hfull⟩ := Nat.find_spec hown
      refine Or.inr ⟨_, full, hfull, prog_of_others h hn fun i hi hi' => ?_⟩
      cases hturn : turn i with
      | own full' => exact absurd ⟨hi, full', hturn⟩ (Nat.find_min hown hi')
      | other a => exact ⟨a, rfl⟩
    · refine Or.inl fun n hn => ?_
      cases hturn : turn n with
      | own full => exact absurd ⟨n, hn, full, hturn⟩ hown
      | other a => exact ⟨a, rfl⟩
  intro p
  induction p with
  | ret r =>
      intro N hN
      rcases hnext N with hothers | ⟨n, full, hturn, hprog⟩
      · exact ⟨N, hothers⟩
      · obtain ⟨a, f, hact, _⟩ := step_own (hturn ▸ h n)
        cases (hprog.trans hN).symm.trans hact
  | act a f ih =>
      intro N hN
      rcases hnext N with hothers | ⟨n, full, hturn, hprog⟩
      · exact ⟨N, hothers⟩
      · obtain ⟨a', f', hact, _, hrest, _⟩ := step_own (hturn ▸ h n)
        cases (hprog.trans hN).symm.trans hact
        exact ih _ (n + 1) hrest

end Turns

/-! ### The local specification -/

/-- What a routine relies on: the blocks it has and what stands in them. -/
structure Hold where
  got : List ℕ
  mem : Mem

/-- The accesses of a routine and what it learns from them. -/
def blockSpec (L : Layout) (arg : ℕ → Prop) : Spec blockSig Hold where
  pre v a := Proper L arg v.got a
  post v
    | .inl (.load n a), r, v' => v' = v ∧ ∀ b ∈ v.got, L.Within b a n → r = load v.mem n a
    | .inl (.store n a w), _, v' => v' = { v with mem := store v.mem n a w }
    | .inl (.osMemGet _), r, v' =>
        (r.2 = OS_ERR_NONE ∧ L.Block .Mem r.1 ∧ v'.got = r.1 :: v.got) ∨
          (r = (0, OS_ERR_MEM_NO_FREE_BLKS) ∧ v' = v)
    | .inl (.osMemPut _ b), r, v' => r = OS_ERR_NONE ∧ v' = { v with got := v.got.erase b }
    | .inr (.osQQuery _ _), _, v' => v'.got = v.got
    | .inr (.osMemQuery _ _), _, v' => v'.got = v.got
    | .inr (.storeSend _), _, v' => v' = v
    | _, _, _ => False

/-- The kernel objects agree with the view of the routine. -/
structure Keeps (L : Layout) (k : Kernel) (v : Hold) : Prop where
  lists : ∃ free, k.Lists L free ∧ ∀ b ∈ v.got, ∀ p, b ∉ free p
  agree : Same L v.mem k.mem v.got
  nodup : v.got.Nodup
  small : ∀ b ∈ v.got, L.Block .Mem b

variable {k : Kernel} {v : Hold} {n a b w : ℕ}

theorem keeps_start {free : Partition → List ℕ} (h : k.Lists L free) (m : Mem) :
    Keeps L k ⟨[], m⟩ where
  lists := ⟨free, h, fun _ hb => nomatch hb⟩
  agree := fun _ hb => nomatch hb
  nodup := List.nodup_nil
  small := fun _ hb => nomatch hb

theorem Keeps.load (h : Keeps L k v) (hb : b ∈ v.got) (hw : L.Within b a n) :
    load k.mem n a = load v.mem n a :=
  (load_congr n a fun _ hi => h.agree b hb _ (hw.inBlock hi)).symm

theorem Keeps.inside (h : Keeps L k v) (hb : b ∈ v.got) {m : Mem}
    (hm : ∀ y, ¬ L.InBlock b y → m y = k.mem y) :
    Keeps L { k with mem := m } { v with mem := m } where
  lists := by
    obtain ⟨free, hlists, hfree⟩ := h.lists
    exact ⟨free, hlists.inside (hfree b hb) hm, hfree⟩
  agree _ _ _ _ := rfl
  nodup := h.nodup
  small := h.small

theorem Keeps.fill (h : Keeps L k v) (hb : b ∈ v.got) (hw : L.Within b a n) {m : Mem}
    (hm : ∀ y, y < a ∨ a + n ≤ y → m y = k.mem y) :
    Keeps L { k with mem := m } { v with mem := m } := by
  refine h.inside hb fun y hy => hm y ?_
  by_contra hn
  obtain ⟨i, rfl⟩ := Nat.exists_eq_add_of_le (show a ≤ y by omega)
  exact hy (hw.inBlock (by omega))

theorem Keeps.store (h : Keeps L k v) (hb : b ∈ v.got) (hw : L.Within b a n) :
    Keeps L { k with mem := store k.mem n a w } { v with mem := Memory.store v.mem n a w } := by
  have hin := h.inside hb fun _ hy => store_of_not_inBlock (m := k.mem) (w := w) hw hy
  exact { hin with agree := fun c hc y hy => store_congr n a w (h.agree c hc y hy) }

theorem not_mem_update {free : Partition → List ℕ} {p q : Partition} {l : List ℕ} {c : ℕ}
    (hp : c ∉ l) (hq : q ≠ p → c ∉ free q) : c ∉ Function.update free p l q := by
  by_cases hqp : q = p
  · subst hqp
    rwa [Function.update_self]
  · rw [Function.update_of_ne hqp]
    exact hq hqp

/-- `OSMemGet`: a block that was free is one of the routine now, or there is none. -/
theorem Keeps.get (h : Keeps L k v) (arg : ℕ → Prop) :
    ∃ v', (blockSpec L arg).post v (.inl (.osMemGet .Mem)) (access (.osMemGet .Mem) k).1 v' ∧
      Keeps L (access (.osMemGet .Mem) k).2 v' := by
  obtain ⟨free, hlists, hfree⟩ := h.lists
  cases hl : free .Mem with
  | nil =>
      rw [hlists.get_nil hl]
      exact ⟨v, Or.inr ⟨rfl, rfl⟩, h⟩
  | cons b l =>
      obtain ⟨k', hget, hlists', hmem, _⟩ := hlists.get hl
      have hb : b ∈ free .Mem := hl ▸ List.mem_cons_self
      have hblock := hlists.inPart .Mem b hb
      have hnodup := List.nodup_cons.mp (hl ▸ hlists.nodup .Mem)
      rw [hget]
      refine ⟨⟨b :: v.got, k'.mem⟩, Or.inl ⟨rfl, hblock, rfl⟩, ⟨_, hlists', ?_⟩, ?_, ?_, ?_⟩
      · intro c hc q
        rcases List.mem_cons.mp hc with rfl | hc
        · refine not_mem_update hnodup.1 fun hq hmem => hq ?_
          exact (hlists.inPart q c hmem).part_unique hblock
        · refine not_mem_update (fun hmem => hfree c hc .Mem ?_) fun _ => hfree c hc q
          exact hl ▸ List.mem_cons_of_mem b hmem
      · exact fun _ _ _ _ => rfl
      · exact List.nodup_cons.mpr ⟨fun hgot => hfree b hgot .Mem hb, h.nodup⟩
      · intro c hc
        rcases List.mem_cons.mp hc with rfl | hc
        · exact hblock
        · exact h.small c hc

theorem Keeps.put {p : Partition} (h : Keeps L k v) (hb : b ∈ v.got) (hblock : L.Block p b) :
    (access (.osMemPut p b) k).1 = OS_ERR_NONE ∧
      Keeps L (access (.osMemPut p b) k).2 { v with got := v.got.erase b } := by
  obtain ⟨free, hlists, hfree⟩ := h.lists
  obtain ⟨k', hput, hlists', hmem, _⟩ := hlists.put hblock (hfree b hb p)
  have hother : ∀ c ∈ v.got.erase b, c ∈ v.got ∧ c ≠ b := fun c hc =>
    ⟨List.mem_of_mem_erase hc, fun he => h.nodup.not_mem_erase (he ▸ hc)⟩
  rw [hput]
  refine ⟨rfl, ⟨_, hlists', ?_⟩, ?_, h.nodup.erase b, fun c hc => h.small c (hother c hc).1⟩
  · intro c hc q
    obtain ⟨hc, hne⟩ := hother c hc
    refine not_mem_update (fun hmem => ?_) fun _ => hfree c hc q
    rcases List.mem_cons.mp hmem with he | hmem
    · exact hne he
    · exact hfree c hc p hmem
  · intro c hc y hy
    obtain ⟨hc, hne⟩ := hother c hc
    rw [hmem, store_of_not_inBlock hblock.within_link fun hy' => hne (hy.unique hy')]
    exact h.agree c hc y hy

/-- The accesses of a routine keep to their specification. -/
theorem block_sound (L : Layout) (arg : ℕ → Prop) (event : Fin TASK_NUM → OsEvent)
    (full : Bool) : Sound (blockSpec L arg) (blockAccess event full) (Keeps L) := by
  intro k v a h hpre
  match a with
  | .inl (.load n a) => exact ⟨v, ⟨rfl, fun b hb hw => h.load hb hw⟩, h⟩
  | .inl (.store n a w) =>
      obtain ⟨b, hb, hw⟩ := hpre
      exact ⟨_, rfl, h.store hb hw⟩
  | .inl (.osMemGet p) =>
      obtain rfl : p = .Mem := hpre
      exact h.get arg
  | .inl (.osMemPut p b) =>
      obtain ⟨hb, hblock⟩ := hpre
      obtain ⟨herr, hkeeps⟩ := h.put hb hblock
      exact ⟨_, ⟨herr, rfl⟩, hkeeps⟩
  | .inl (.osQPost t b) => cases hpre
  | .inl (.osQAccept t) => cases hpre
  | .inr (.osQQuery t d) =>
      obtain ⟨b, hb, hw⟩ := hpre
      exact ⟨{ v with mem := (osQQuery (event t) (k.QMessage t) d k.mem).2 }, rfl,
        h.fill hb hw fun y hy => osQQuery_outside _ _ k.mem hy⟩
  | .inr (.osMemQuery p d) =>
      obtain ⟨b, hb, hw⟩ := hpre
      exact ⟨{ v with mem := osMemQuery (k.part p) d k.mem }, rfl,
        h.fill hb hw fun y hy => osMemQuery_outside _ k.mem hy⟩
  | .inr (.storeSend b) => exact ⟨v, rfl, h⟩

/-! ### Rules for the accesses -/

section Rules

variable {arg : ℕ → Prop} {Q : α → Hold → Prop}

theorem safe_loadBlock {f : ℕ → Prog blockSig α} (hb : b ∈ v.got) (hw : L.Within b a n)
    (hf : Safe (blockSpec L arg) Q (f (load v.mem n a)) v) :
    Safe (blockSpec L arg) Q (.act (.inl (.load n a)) f) v := by
  refine ⟨Or.inl ⟨b, hb, hw⟩, ?_⟩
  rintro r v' ⟨rfl, hr⟩
  obtain rfl := hr b hb hw
  exact hf

/-- Reading what the routine was given to read: it may be anything. -/
theorem safe_loadArg {f : ℕ → Prog blockSig α} (harg : ∀ i < n, arg (a + i))
    (hf : ∀ r, Safe (blockSpec L arg) Q (f r) v) :
    Safe (blockSpec L arg) Q (.act (.inl (.load n a)) f) v := by
  refine ⟨Or.inr harg, ?_⟩
  rintro r v' ⟨rfl, _⟩
  exact hf r

theorem safe_storeBlock {f : Unit → Prog blockSig α} (hb : b ∈ v.got) (hw : L.Within b a n)
    (hf : Safe (blockSpec L arg) Q (f ()) { v with mem := store v.mem n a w }) :
    Safe (blockSpec L arg) Q (.act (.inl (.store n a w)) f) v := by
  refine ⟨⟨b, hb, hw⟩, ?_⟩
  rintro _ v' rfl
  exact hf

/-- `MEM_Get` of a small block: the program goes on without it or with it. -/
theorem safe_getBlock {size : ℕ} (hsize : size ≤ MEM_SIZE) {e : Prog blockSig α}
    {f : ℕ → Prog blockSig α} (he : Safe (blockSpec L arg) Q e v)
    (hf : ∀ b v', L.Block .Mem b → v'.got = b :: v.got → Safe (blockSpec L arg) Q (f b) v') :
    Safe (blockSpec L arg) Q ((memGet size).inl >>= fun r => if r.1 = 0 then e else f r.1) v := by
  unfold memGet
  rw [if_pos hsize]
  refine ⟨rfl, ?_⟩
  intro (r : ℕ × ℕ) v' hpost
  show Safe _ _ (if r.1 = 0 then e else f r.1) v'
  rcases hpost with ⟨_, hblock, hgot⟩ | ⟨hr, hv⟩
  · rw [if_neg hblock.pos.ne']
    exact hf r.1 v' hblock hgot
  · rw [if_pos (congrArg Prod.fst hr), hv]
    exact he

theorem safe_putBlock {rest : List ℕ} (hgot : v.got = b :: rest) (hblock : L.Block .Mem b) :
    Safe (blockSpec L arg) (fun _ v' => v'.got = rest) (memPut L b).inl v := by
  rw [memPut_eq hblock]
  refine ⟨⟨hgot ▸ List.mem_cons_self, hblock⟩, ?_⟩
  rintro _ v' ⟨_, rfl⟩
  show v.got.erase b = rest
  rw [hgot, List.erase_cons_head]

end Rules

/-! ### The other tasks -/

theorem mem_reserved {held : List ℕ} : b ∈ k.reserved held ↔
    b ∈ held ∨ ∃ p, b ∈ k.freeList p := by
  simp only [Kernel.reserved, List.mem_append, or_assoc]
  refine or_congr_right ⟨?_, ?_⟩
  · rintro (h | h)
    · exact ⟨.Mem, h⟩
    · exact ⟨.MemBig, h⟩
  · rintro ⟨p, h⟩
    cases p with
    | Mem => exact Or.inl h
    | MemBig => exact Or.inr h

theorem Keeps.outside (h : Keeps L k v) {m : Mem} (hm : Same L k.mem m (k.reserved v.got)) :
    Keeps L { k with mem := m } v where
  lists := by
    obtain ⟨free, hlists, hfree⟩ := h.lists
    refine ⟨free, hlists.congr fun p b hb => hm b ?_, hfree⟩
    exact mem_reserved.mpr (Or.inr ⟨p, hlists.freeList_eq p ▸ hb⟩)
  agree b hb y hy := (h.agree b hb y hy).trans (hm b (mem_reserved.mpr (Or.inl hb)) y hy)
  nodup := h.nodup
  small := h.small

theorem Keeps.other_get (h : Keeps L k v) (p : Partition) :
    Keeps L (access (.osMemGet p) k).2 v := by
  obtain ⟨free, hlists, hfree⟩ := h.lists
  cases hl : free p with
  | nil =>
      rw [hlists.get_nil hl]
      exact h
  | cons b l =>
      obtain ⟨k', hget, hlists', hmem, _⟩ := hlists.get hl
      rw [hget]
      refine ⟨⟨_, hlists', fun c hc q => ?_⟩, hmem ▸ h.agree, h.nodup, h.small⟩
      refine not_mem_update (fun hc' => hfree c hc p ?_) fun _ => hfree c hc q
      exact hl ▸ List.mem_cons_of_mem b hc'

theorem Keeps.other_put (h : Keeps L k v) {p : Partition} (hblock : L.Block p b)
    (hb : b ∉ k.reserved v.got) : Keeps L (access (.osMemPut p b) k).2 v := by
  obtain ⟨free, hlists, hfree⟩ := h.lists
  rw [mem_reserved, not_or] at hb
  obtain ⟨hgot, hnot⟩ := hb
  obtain ⟨k', hput, hlists', hmem, _⟩ :=
    hlists.put hblock fun hf => hnot ⟨p, (hlists.freeList_eq p).symm ▸ hf⟩
  rw [hput]
  refine ⟨⟨_, hlists', fun c hc q => ?_⟩, fun c hc y hy => ?_, h.nodup, h.small⟩
  · refine not_mem_update (fun hc' => ?_) fun _ => hfree c hc q
    rcases List.mem_cons.mp hc' with he | hc'
    · exact hgot (he ▸ hc)
    · exact hfree c hc p hc'
  · rw [hmem, store_of_not_inBlock hblock.within_link]
    · exact h.agree c hc y hy
    · exact fun hy' => hgot (hy.unique hy' ▸ hc)

/-- What other tasks do leaves the routine alone. -/
theorem Keeps.other (h : Keeps L k v) {a : Act} (ha : Allowed L v.got k a) :
    Keeps L (access a k).2 v := by
  have hqueue : ∀ q, Keeps L { k with QMessage := q } v := by
    intro q
    obtain ⟨free, hlists, hfree⟩ := h.lists
    have hlists' : Kernel.Lists L { k with QMessage := q } free :=
      ⟨hlists.part, hlists.nblks, hlists.inPart, hlists.nodup⟩
    exact ⟨⟨free, hlists', hfree⟩, h.agree, h.nodup, h.small⟩
  cases a with
  | load n a => exact h
  | store n a w =>
      refine h.outside fun b hb y hy => (store_of_outside n a w k.mem ?_).symm
      by_contra hn
      obtain ⟨i, rfl⟩ := Nat.exists_eq_add_of_le (show a ≤ y by omega)
      exact ha i (by omega) b hb hy
  | osMemGet p => exact h.other_get p
  | osMemPut p b => exact h.other_put ha.1 ha.2
  | osQPost t b => exact hqueue _
  | osQAccept t => exact hqueue _

/-! ### Every block is accounted for -/

/-- What a routine does with its blocks up to some moment of a run. -/
structure Accounted (L : Layout) (arg : ℕ → Prop) (s : Routine α) : Prop where
  /-- It has small blocks, none of them twice, and never `NULL`. -/
  held : s.ledger.held.Nodup ∧ ∀ b ∈ s.ledger.held, L.Block .Mem b ∧ b ≠ 0
  /-- What it has obtained was put back once, or it still has it. -/
  balance : s.ledger.obtained.Perm (s.ledger.returned ++ s.ledger.held)
  /-- Its next access stays in the blocks it has now, and what it puts back goes to the
  partition it comes from. -/
  proper : ∀ a k, s.prog = .act a k → Proper L arg s.ledger.held a
  /-- Putting back does not fail. -/
  put : ∀ p b k, s.prog = .act (.inl (.osMemPut p b)) k →
    (access (.osMemPut p b) s.kernel).1 = OS_ERR_NONE
  /-- When it returns nothing is left. -/
  done : ∀ r, s.prog = .ret r → s.ledger.held = [] ∧ s.ledger.returned.Perm s.ledger.obtained

/-- The invariant behind it. -/
structure Routine.Ok (L : Layout) (arg : ℕ → Prop) (s : Routine α) (v : Hold) : Prop where
  keeps : Keeps L s.kernel v
  held : s.ledger.held = v.got
  balance : s.ledger.obtained.Perm (s.ledger.returned ++ s.ledger.held)
  safe : Safe (blockSpec L arg) (fun _ v => v.got = []) s.prog v

variable {arg : ℕ → Prop}

theorem Routine.Ok.accounted (h : s.Ok L arg v) : Accounted L arg s where
  held := by
    rw [h.held]
    exact ⟨h.keeps.nodup, fun b hb => ⟨h.keeps.small b hb, (h.keeps.small b hb).pos.ne'⟩⟩
  balance := h.balance
  proper a k hprog := by
    have hsafe := h.safe
    rw [hprog] at hsafe
    rw [h.held]
    exact hsafe.1
  put p b k hprog := by
    have hsafe := h.safe
    rw [hprog] at hsafe
    exact (h.keeps.put hsafe.1.1 hsafe.1.2).1
  done r hprog := by
    have hsafe := h.safe
    have hbalance := h.balance
    rw [hprog] at hsafe
    have hnil : s.ledger.held = [] := h.held.trans hsafe
    rw [hnil, List.append_nil] at hbalance
    exact ⟨hnil, hbalance.symm⟩

/-- The ledger follows the view. -/
theorem note_of_post {l : Ledger} {v' : Hold} {a : blockSig.Act} {r : blockSig.Res a}
    (hheld : l.held = v.got) (hbalance : l.obtained.Perm (l.returned ++ l.held))
    (hpre : Proper L arg v.got a) (hpost : (blockSpec L arg).post v a r v') :
    (l.note a r).held = v'.got ∧
      (l.note a r).obtained.Perm ((l.note a r).returned ++ (l.note a r).held) := by
  match a with
  | .inl (.load n a) =>
      obtain ⟨rfl, _⟩ := hpost
      exact ⟨hheld, hbalance⟩
  | .inl (.store n a w) =>
      obtain rfl := hpost
      exact ⟨hheld, hbalance⟩
  | .inl (.osMemGet p) =>
      rcases hpost with ⟨herr, _, hgot⟩ | ⟨rfl, rfl⟩
      · simp only [Ledger.note, if_pos herr]
        refine ⟨by rw [hgot, hheld], ?_⟩
        exact (hbalance.cons r.1).trans List.perm_middle.symm
      · exact ⟨hheld, hbalance⟩
  | .inl (.osMemPut p b) =>
      obtain ⟨rfl, rfl⟩ := hpost
      have hb : b ∈ l.held := hheld ▸ hpre.1
      simp only [Ledger.note, if_true]
      refine ⟨by rw [hheld], hbalance.trans ?_⟩
      rw [List.cons_append]
      exact ((List.perm_cons_erase hb).append_left l.returned).trans List.perm_middle
  | .inr (.osQQuery t d) => exact ⟨hheld.trans (Eq.symm hpost), hbalance⟩
  | .inr (.osMemQuery p d) => exact ⟨hheld.trans (Eq.symm hpost), hbalance⟩
  | .inr (.storeSend b) =>
      obtain rfl := hpost
      exact ⟨hheld, hbalance⟩

theorem Routine.Ok.step (h : s.Ok L arg v) {e : Turn} (hs : s.step L event e = some s') :
    ∃ v', s'.Ok L arg v' := by
  cases e with
  | own full =>
      obtain ⟨a, f, hprog, hkernel, hprog', hledger⟩ := step_own hs
      have hsafe := h.safe
      rw [hprog] at hsafe
      obtain ⟨v', hpost, hkeeps, hrest⟩ := hsafe.step (block_sound L arg event full) h.keeps
      obtain ⟨hheld, hbalance⟩ := note_of_post h.held h.balance hsafe.1 hpost
      refine ⟨v', ?_, ?_, ?_, ?_⟩
      · exact hkernel ▸ hkeeps
      · exact hledger ▸ hheld
      · exact hledger ▸ hbalance
      · exact hprog' ▸ hrest
  | other a =>
      obtain ⟨ha, rfl⟩ := step_other_task hs
      exact ⟨v, h.keeps.other (h.held ▸ ha), h.held, h.balance, h.safe⟩

/-- A program that is safe and ends without a block accounts for its blocks in every
interleaving with other tasks, whatever the state of the partitions and queues is. -/
theorem accounted_of_safe {p : Prog blockSig α} {m : Mem}
    (hsafe : Safe (blockSpec L arg) (fun _ v => v.got = []) p ⟨[], m⟩)
    {free : Partition → List ℕ} (hk : k.Lists L free) {es : List Turn}
    (h : exec (Routine.step L event) (Routine.start p k) es = some s) :
    Accounted L arg s := by
  have hstart : ∃ v, (Routine.start p k).Ok L arg v :=
    ⟨⟨[], m⟩, keeps_start hk m, rfl, List.Perm.refl _, hsafe⟩
  have hok := exec_invariant' (I := fun s => ∃ v, Routine.Ok L arg s v)
    (fun s e s' ⟨_, hv⟩ hs => hv.step hs) hstart h
  obtain ⟨v, hv⟩ := hok
  exact hv.accounted

/-! ### The tasks of the machine -/

section Machine

variable {Tid : Type} {t t' : Machine Tid} {x y : Tid} {held : List ℕ}

theorem Machine.Ok.not_reserved (h : t.Ok L) (hheld : ∀ b ∈ held, b ∈ t.shared.own x)
    (hy : y ≠ x) (hb : b ∈ t.shared.own y) : b ∉ t.shared.kernel.reserved held := by
  obtain ⟨free, queue, hp⟩ := h.sound
  intro hr
  rcases mem_reserved.mp hr with hr | ⟨p, hr⟩
  · exact hy (hp.own_unique hb (hheld b hr))
  · exact hp.not_free hb p (hp.freeList_eq p ▸ hr)

theorem Machine.Ok.not_reserved_inBlock (h : t.Ok L)
    (hheld : ∀ b ∈ held, b ∈ t.shared.own x) (hy : y ≠ x) (hb : b ∈ t.shared.own y) {z : ℕ}
    (hz : L.InBlock b z) : ∀ c ∈ t.shared.kernel.reserved held, ¬ L.InBlock c z := by
  intro c hc hcz
  exact h.not_reserved hheld hy hb (hcz.unique hz ▸ hc)

theorem perform_kernel [DecidableEq Tid] (job : Option (Post Tid)) (a : Act) (s : Shared Tid) :
    (s.perform x job a).2.kernel = (access a s.kernel).2 := by
  cases a <;> rfl

variable [DecidableEq Tid]

/-- An event of another task changes the kernel objects by an access that is allowed, or not at
all. -/
theorem Machine.Ok.step_allowed (h : t.Ok L) (hheld : ∀ b ∈ held, b ∈ t.shared.own x)
    {e : Event Tid} (he : e.tid ≠ x) (hs : t.step L e = some t') :
    t'.shared.kernel = t.shared.kernel ∨ ∃ a, Allowed L held t.shared.kernel a ∧
      t'.shared.kernel = (access a t.shared.kernel).2 := by
  cases e with
  | call y c =>
      obtain ⟨_, _, hshared, _⟩ := step_call hs
      exact Or.inl (by rw [hshared])
  | ret y =>
      obtain ⟨_, _, _, _, _, hshared, _⟩ := step_ret hs
      exact Or.inl (by rw [hshared])
  | act y =>
      obtain ⟨c, a, k, src, seen, hrun, hshared, _⟩ := step_act hs
      obtain ⟨v, hact, _, hpre, _⟩ := (h.task y).busy _ hrun
      refine Or.inr ⟨a, ?_, by rw [hshared]; exact perform_kernel _ a _⟩
      cases a with
      | store n a w =>
          obtain ⟨_, b, hb, hw⟩ := hpre
          exact fun i hi => h.not_reserved_inBlock hheld he (hact.got_own hb) (hw.inBlock hi)
      | osMemPut p b =>
          obtain ⟨_, hb, hblock⟩ := hpre
          exact ⟨hblock, h.not_reserved hheld he (hact.got_own hb)⟩
      | load n a => trivial
      | osMemGet p => trivial
      | osQPost q b => trivial
      | osQAccept q => trivial
  | write y a w =>
      obtain ⟨u, hu, rfl⟩ := step_eq hs
      obtain ⟨⟨hwhere, _⟩, rfl⟩ := next_write hu
      refine Or.inr ⟨.store 1 a w.toNat, ?_, ?_⟩
      · intro i hi c hc hca
        obtain rfl : i = 0 := by omega
        rcases hwhere with hout | ⟨b, hb, hba⟩
        · exact hca.not_outside hout
        · exact h.not_reserved_inBlock hheld he ((h.task y).blocks_own hb) hba c hc hca
      · simp [access, Memory.store, Machine.watch]

end Machine

end Stm32Templet.Sys
