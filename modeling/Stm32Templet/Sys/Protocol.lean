import Stm32Templet.Sys.Pools

/-! # What a call may do

The local specification of the message functions.  While a call runs, its task relies on the
blocks that the call has obtained so far and on their contents (`View`).  `callSpec` says
which accesses keep to that: memory is read and written in these blocks only, apart from the
bytes to be sent, which are read one after the other; a block is put back to its own
partition; what is posted is a complete message with the bytes read.  There is one exception:
after a successful post, when no block is left, the code still reads the first field of the
message it has handed over.

`Acting` ties a view to the shared state, and the accesses keep it (`call_sound`).  What they
change is confined to the blocks of the view (`perform_mem`, `perform_own`), so the other
tasks can rely on theirs. -/

namespace Stm32Templet.Sys

open Memory Os Tasks Atomic Places

/-! ### What a call has seen -/

/-- The course of a call up to now. -/
structure Seen where
  /-- The bytes read from `pData`. -/
  read : List UInt8
  /-- The message posted. -/
  posted : Option ℕ
  /-- Whether an allocation or a post has failed. -/
  refused : Bool
  /-- The contents of the message accepted. -/
  accepted : Option Msg

def Seen.start : Seen := ⟨[], none, false, none⟩

/-- The course after one more access, with the memory the access has found.  Single bytes are
read from `pData` only. -/
def Seen.after (v : Seen) (m : Mem) : (a : Act) → a.Res → Seen
  | .load n _, r => if n = 1 then { v with read := v.read ++ [UInt8.ofNat r] } else v
  | .store _ _ _, _ => v
  | .osMemGet _, r => if r.2 = 0 then v else { v with refused := true }
  | .osMemPut _ _, _ => v
  | .osQPost _ a, r => if r = 0 then { v with posted := some a } else { v with refused := true }
  | .osQAccept _, r => if r.2 = 0 then { v with accepted := some (decode m r.1) } else v

theorem Seen.posted_after (v : Seen) (m : Mem) {a : Act} (r : a.Res)
    (h : ∀ t b, a ≠ .osQPost t b) : (v.after m a r).posted = v.posted := by
  cases a with
  | load n a => exact (apply_ite posted _ _ _).trans (ite_self _)
  | store n a w => rfl
  | osMemGet p => exact (apply_ite posted _ _ _).trans (ite_self _)
  | osMemPut p b => rfl
  | osQPost t b => exact absurd rfl (h t b)
  | osQAccept t => exact (apply_ite posted _ _ _).trans (ite_self _)

theorem Seen.accepted_after (v : Seen) (m : Mem) {a : Act} (r : a.Res)
    (h : ∀ t, a ≠ .osQAccept t) : (v.after m a r).accepted = v.accepted := by
  cases a with
  | load n a => exact (apply_ite accepted _ _ _).trans (ite_self _)
  | store n a w => rfl
  | osMemGet p => exact (apply_ite accepted _ _ _).trans (ite_self _)
  | osMemPut p b => rfl
  | osQPost t b => exact (apply_ite accepted _ _ _).trans (ite_self _)
  | osQAccept t => exact absurd rfl (h t)

/-- What a call relies on. -/
structure View where
  /-- The blocks obtained and not given away. -/
  got : List ℕ
  /-- Memory, as far as these blocks are concerned. -/
  mem : Mem
  seen : Seen

/-- What an access does to the blocks of the call, and its result. -/
def View.Effect (L : Layout) (v v' : View) : (a : Act) → a.Res → Prop
  | .load n a, r => v'.got = v.got ∧ v'.mem = v.mem ∧
      ∀ b ∈ v.got, L.Within b a n → r = load v.mem n a
  | .store n a w, _ => v'.got = v.got ∧ v'.mem = store v.mem n a w
  | .osMemGet p, r =>
      (r.2 = 0 ∧ L.Block p r.1 ∧ r.1 ∉ v.got ∧ Same L v.mem v'.mem v.got ∧
        v'.got = r.1 :: v.got) ∨
      (r = (0, OS_ERR_MEM_NO_FREE_BLKS) ∧ v'.got = v.got ∧ v'.mem = v.mem)
  | .osMemPut _ b, r => r = 0 ∧ v'.got = without [b] v.got ∧ v'.mem = v.mem
  | .osQPost _ _, r => v'.mem = v.mem ∧
      (r = 0 ∧ v'.got = [] ∨ r = OS_ERR_Q_FULL ∧ v'.got = v.got)
  | .osQAccept _, r =>
      (r.2 = 0 ∧ Formed L v'.mem r.1 ∧ v'.got = msgBlocks v'.mem r.1) ∨
      (r = (0, OS_ERR_Q_EMPTY) ∧ v'.got = v.got ∧ v'.mem = v.mem)

/-- The next byte to be sent is at `a`. -/
def View.Next (v : View) (c : Call) (a : ℕ) : Prop :=
  ∃ d, c = .send d ∧ v.seen.read.length < d.len.toNat ∧ a = d.pData + v.seen.read.length

/-- The accesses of a call and what it learns from them. -/
def callSpec (L : Layout) (c : Call) : Spec sig View where
  pre v
    | .load n a => (∀ p, v.seen.posted = some p → n = 2 ∧ a = p) ∧
        (v.seen.posted = none → (n ≠ 1 ∧ ∃ b ∈ v.got, L.Within b a n) ∨ (n = 1 ∧ v.Next c a))
    | .store n a _ => v.seen.posted = none ∧ ∃ b ∈ v.got, L.Within b a n
    | .osMemGet _ => v.seen.posted = none
    | .osMemPut p b => v.seen.posted = none ∧ b ∈ v.got ∧ L.Block p b
    | .osQPost t a => v.seen.posted = none ∧ v.seen.refused = false ∧
        (∃ d, c = .send d ∧ d.task = t ∧ decode v.mem a = d.msg v.seen.read) ∧
        Formed L v.mem a ∧ v.got.Perm (msgBlocks v.mem a)
    | .osQAccept t => v.seen.posted = none ∧ v.seen.accepted = none ∧ v.got = [] ∧
        c = .receive t
  post v a r v' := v.Effect L v' a r ∧ v'.seen = v.seen.after v'.mem a r

variable {Tid : Type} {L : Layout}

/-- The entry for the message that the call of task `x` may post. -/
def Call.job (c : Call) (x : Tid) (src : Option (List UInt8)) (seen : Seen) :
    Option (Post Tid) :=
  match c with
  | .send d => some ⟨x, d, seen.read, src⟩
  | _ => none

/-- One access of the call `c` of task `x`. -/
def turn [DecidableEq Tid] (x : Tid) (c : Call) (src : Option (List UInt8)) (a : Act)
    (s : Shared Tid × Seen) : a.Res × (Shared Tid × Seen) :=
  let r := s.1.perform x (c.job x src s.2) a
  (r.1, r.2, s.2.after s.1.kernel.mem a r.1)

/-- The shared state agrees with the view of a call of task `x`, `rest` being the blocks the
task has besides those of the call. -/
structure Acting (L : Layout) (x : Tid) (rest : List ℕ) (s : Shared Tid) (v : View) :
    Prop where
  own : (s.own x).Perm (v.got ++ rest)
  agree : Same L v.mem s.kernel.mem v.got
  gone : ∀ a, v.seen.posted = some a → L.Block .Mem a ∧ a ∉ s.own x

/-- The pools are in order, whatever the free lists and queues are. -/
def Shared.Sound (L : Layout) (s : Shared Tid) : Prop := ∃ free queue, Pools L s free queue

variable {x : Tid} {rest : List ℕ} {c : Call} {s : Shared Tid} {v : View}
  {free : Partition → List ℕ} {queue : Fin TASK_NUM → List ℕ}

theorem Acting.got_own (h : Acting L x rest s v) {b : ℕ} (hb : b ∈ v.got) : b ∈ s.own x :=
  h.own.mem_iff.mpr (List.mem_append_left _ hb)

theorem Acting.nodup (h : Acting L x rest s v) (hp : Pools L s free queue) :
    (v.got ++ rest).Nodup :=
  h.own.nodup_iff.mp (hp.places.nodup (.task x))

/-- A change outside the blocks of the call. -/
theorem Acting.of_same (h : Acting L x rest s v) {s' : Shared Tid} (hown : s'.own x = s.own x)
    (hgot : Same L s.kernel.mem s'.kernel.mem v.got) : Acting L x rest s' v where
  own := hown ▸ h.own
  agree b hb a ha := (h.agree b hb a ha).trans (hgot b hb a ha)
  gone := hown ▸ h.gone

theorem store_congr {m m' : Mem} : ∀ (n a v : ℕ) {x : ℕ}, m x = m' x →
    store m n a v x = store m' n a v x := by
  intro n
  induction n generalizing m m' with
  | zero => exact fun _ _ _ h => h
  | succ n ih =>
      intro a v x h
      apply ih (a + 1) (v / 256)
      by_cases hx : x = a
      · rw [hx, Function.update_self, Function.update_self]
      · rw [Function.update_of_ne hx, Function.update_of_ne hx, h]

theorem Acting.same_message (h : Acting L x rest s v) {a : ℕ}
    (hgot : v.got.Perm (msgBlocks v.mem a)) : Same L v.mem s.kernel.mem (msgBlocks v.mem a) :=
  fun b hb y hy => h.agree b (hgot.mem_iff.mpr hb) y hy

/-! ### The accesses, one by one -/

theorem Acting.load (h : Acting L x rest s v) {n a b : ℕ} (hb : b ∈ v.got)
    (hw : L.Within b a n) : load s.kernel.mem n a = load v.mem n a := by
  refine (load_congr n a fun k hk => ?_).symm
  exact h.agree b hb _ (hw.inBlock hk)

variable [DecidableEq Tid] (job : Option (Post Tid))

theorem Acting.store (h : Acting L x rest s v) (hp : Pools L s free queue) {n a w b : ℕ}
    (hb : b ∈ v.got) (hw : L.Within b a n) :
    Pools L (s.perform x job (.store n a w)).2 free queue ∧
      Acting L x rest (s.perform x job (.store n a w)).2
        { v with mem := Memory.store v.mem n a w } := by
  constructor
  · refine hp.congr_own (x := x) [b] (by simpa using h.got_own hb) fun y hy _ => ?_
    exact (store_of_not_inBlock hw (hy b List.mem_cons_self)).symm
  · refine ⟨h.own, fun c hc y hy => ?_, h.gone⟩
    exact store_congr n a w (h.agree c hc y hy)

theorem Acting.get (h : Acting L x rest s v) (hp : Pools L s free queue)
    (hv : v.seen.posted = none) (p : Partition) :
    ∃ v' free', v.Effect L v' (.osMemGet p) (s.perform x job (.osMemGet p)).1 ∧
      v'.seen = v.seen ∧ Pools L (s.perform x job (.osMemGet p)).2 free' queue ∧
      Acting L x rest (s.perform x job (.osMemGet p)).2 v' := by
  cases hl : free p with
  | nil =>
      rw [hp.get_nil job hl]
      exact ⟨v, free, Or.inr ⟨rfl, rfl, rfl⟩, rfl, hp, h⟩
  | cons b l =>
      obtain ⟨s', hs, hp', hmem, hown, _, _⟩ := hp.get (x := x) job hl
      have hfree : b ∈ free p := hl ▸ List.mem_cons_self
      have hnot : b ∉ v.got := fun hb => hp.not_free (h.got_own hb) p hfree
      rw [hs]
      refine ⟨⟨b :: v.got, s.kernel.mem, v.seen⟩, _,
        Or.inl ⟨rfl, hp.lists.inPart p b hfree, hnot, h.agree, rfl⟩, rfl, hp', ?_, ?_, ?_⟩
      · rw [hown, Function.update_self]
        exact h.own.cons b
      · rw [hmem]
        exact fun _ _ _ _ => rfl
      · intro a ha
        rw [hv] at ha
        cases ha

theorem Acting.put (h : Acting L x rest s v) (hp : Pools L s free queue)
    (hv : v.seen.posted = none) {p : Partition} {b : ℕ} (hb : b ∈ v.got)
    (hblock : L.Block p b) :
    ∃ free', (s.perform x job (.osMemPut p b)).1 = 0 ∧
      Pools L (s.perform x job (.osMemPut p b)).2 free' queue ∧
      Acting L x rest (s.perform x job (.osMemPut p b)).2
        { v with got := without [b] v.got } := by
  obtain ⟨s', hs, hp', hmem, hown, _, _⟩ := hp.put job (h.got_own hb) hblock
  have hdisj := (List.nodup_append.mp (h.nodup hp)).2.2
  rw [hs]
  refine ⟨_, rfl, hp', ?_, fun c hc y hy => ?_, ?_⟩
  · have hrest : without [b] rest = rest := by
      refine List.filter_eq_self.mpr fun c hc => ?_
      simpa using fun he => hdisj b hb c hc he.symm
    rw [hown, Function.update_self]
    have hfilter := h.own.filter fun c => decide (c ∉ [b])
    rw [List.filter_append] at hfilter
    rw [← hrest]
    exact hfilter
  · have hcb : c ≠ b := by simpa using (List.mem_filter.mp hc).2
    rw [hmem, store_of_not_inBlock hblock.within_link fun hin => hcb (hy.unique hin)]
    exact h.agree c (List.mem_filter.mp hc).1 y hy
  · intro a ha
    simp only [hv] at ha
    cases ha

theorem Acting.post (h : Acting L x rest s v) (hp : Pools L s free queue) {d : Send} {a : ℕ}
    (src : Option (List UInt8)) (hmsg : decode v.mem a = d.msg v.seen.read)
    (hf : Formed L v.mem a) (hgot : v.got.Perm (msgBlocks v.mem a)) :
    let r := s.perform x (some ⟨x, d, v.seen.read, src⟩) (.osQPost d.task a)
    ∃ v' queue', v.Effect L v' (.osQPost d.task a) r.1 ∧
      v'.seen = v.seen.after v.mem (.osQPost d.task a) r.1 ∧ Pools L r.2 free queue' ∧
      Acting L x rest r.2 v' := by
  intro r
  have hsame := h.same_message hgot
  have hblocks := msgBlocks_congr hf hsame
  rcases Nat.lt_or_ge (queue d.task).length MESSAGE_NUM with hroom | hfull
  · obtain ⟨s', hs, hp', hmem, hown, _, _⟩ := hp.post (x := x)
      (e := ⟨x, d, v.seen.read, src⟩) hroom (hf.congr hsame)
      (fun b hb => h.got_own (hgot.mem_iff.mpr (hblocks ▸ hb))) rfl
      ((decode_congr hf hsame).symm.trans hmsg)
    have hr : r = (0, s') := hs
    rw [hr]
    refine ⟨⟨[], v.mem, { v.seen with posted := some a }⟩, _, ⟨rfl, Or.inl ⟨rfl, rfl⟩⟩,
      rfl, hp', ?_, ?_, ?_⟩
    · rw [hown, Function.update_self, ← hblocks]
      have hfilter := h.own.filter fun c => decide (c ∉ msgBlocks v.mem a)
      rw [List.filter_append] at hfilter
      have hgone : v.got.filter (fun c => decide (c ∉ msgBlocks v.mem a)) = [] := by
        refine List.filter_eq_nil_iff.mpr fun c hc => ?_
        simpa using hgot.mem_iff.mp hc
      have hrest : rest.filter (fun c => decide (c ∉ msgBlocks v.mem a)) = rest := by
        refine List.filter_eq_self.mpr fun c hc => ?_
        simpa using fun hc' =>
          (List.nodup_append.mp (h.nodup hp)).2.2 c (hgot.mem_iff.mpr hc') c hc rfl
      rw [hgone, hrest] at hfilter
      exact hfilter
    · exact fun b hb => absurd hb List.not_mem_nil
    · rintro c ⟨⟩
      refine ⟨hf.block, ?_⟩
      rw [hown, Function.update_self, ← hblocks]
      intro hin
      exact (of_decide_eq_true (List.mem_filter.mp hin).2) (mem_msgBlocks v.mem a)
  · have hlen : (queue d.task).length = MESSAGE_NUM := by
      have hle := (hp.rep d.task).le
      rw [hp.size] at hle
      omega
    have hr : r = (OS_ERR_Q_FULL, s) := hp.post_full _ hlen
    rw [hr]
    exact ⟨{ v with seen.refused := true }, queue, ⟨rfl, Or.inr ⟨rfl, rfl⟩⟩, rfl, hp,
      ⟨h.own, h.agree, h.gone⟩⟩

theorem Acting.accept (h : Acting L x rest s v) (hp : Pools L s free queue)
    (hv : v.seen.posted = none) (hgot : v.got = []) (t : Fin TASK_NUM) :
    let r := s.perform x job (.osQAccept t)
    ∃ v' queue', v.Effect L v' (.osQAccept t) r.1 ∧
      v'.seen = v.seen.after v'.mem (.osQAccept t) r.1 ∧
      v'.seen = v.seen.after s.kernel.mem (.osQAccept t) r.1 ∧ Pools L r.2 free queue' ∧
      Acting L x rest r.2 v' := by
  intro r
  cases hl : queue t with
  | nil =>
      have hr : r = ((0, OS_ERR_Q_EMPTY), s) := hp.accept_nil job hl
      rw [hr]
      exact ⟨v, queue, Or.inr ⟨rfl, rfl, rfl⟩, rfl, rfl, hp, h⟩
  | cons a l =>
      obtain ⟨s', hs, hp', hmem, hown, _, _⟩ := hp.accept (x := x) job hl
      have hf := hp.formed t a (hl ▸ List.mem_cons_self)
      have hr : r = ((a, 0), s') := hs
      rw [hr]
      refine ⟨⟨msgBlocks s.kernel.mem a, s.kernel.mem,
          { v.seen with accepted := some (decode s.kernel.mem a) }⟩, _,
        Or.inl ⟨rfl, hf, rfl⟩, rfl, rfl, hp', ?_, ?_, ?_⟩
      · have hrest := h.own
        rw [hgot, List.nil_append] at hrest
        rw [hown, Function.update_self]
        exact hrest.append_left _
      · rw [hmem]
        exact fun _ _ _ _ => rfl
      · intro b hb
        simp only [hv] at hb
        cases hb

/-- The shared state honours the specification of the calls. -/
theorem call_sound (L : Layout) (x : Tid) (rest : List ℕ) (c : Call)
    (src : Option (List UInt8)) :
    Sound (callSpec L c) (turn x c src) fun s v =>
      s.1.Sound L ∧ Acting L x rest s.1 v ∧ v.seen = s.2 := by
  rintro ⟨s, seen⟩ v a ⟨⟨free, queue, hp⟩, h, rfl⟩ hpre
  cases a with
  | load n a =>
      refine ⟨{ v with seen := v.seen.after s.kernel.mem (.load n a) (load s.kernel.mem n a) },
        ⟨⟨rfl, rfl, fun b hb hw => h.load hb hw⟩, rfl⟩, ⟨free, queue, hp⟩,
        ⟨h.own, h.agree, ?_⟩, rfl⟩
      intro p hp
      rw [Seen.posted_after _ _ _ (by simp)] at hp
      exact h.gone p hp
  | store n a w =>
      obtain ⟨_, b, hb, hw⟩ := hpre
      obtain ⟨hp', h'⟩ := h.store (c.job x src v.seen) hp (w := w) hb hw
      exact ⟨{ v with mem := store v.mem n a w }, ⟨⟨rfl, rfl⟩, rfl⟩, ⟨free, queue, hp'⟩, h',
        rfl⟩
  | osMemGet p =>
      obtain ⟨v', free', heff, hseen, hp', h'⟩ := h.get (c.job x src v.seen) hp hpre p
      refine ⟨{ v' with seen := v.seen.after v'.mem (.osMemGet p) _ }, ⟨heff, rfl⟩,
        ⟨free', queue, hp'⟩, ⟨h'.own, h'.agree, ?_⟩, rfl⟩
      intro b hb
      rw [Seen.posted_after _ _ _ (by simp), ← hseen] at hb
      exact h'.gone b hb
  | osMemPut p b =>
      obtain ⟨hv, hb, hblock⟩ := hpre
      obtain ⟨free', hr, hp', h'⟩ := h.put (c.job x src v.seen) hp hv hb hblock
      exact ⟨{ v with got := without [b] v.got }, ⟨⟨hr, rfl, rfl⟩, rfl⟩, ⟨free', queue, hp'⟩,
        h', rfl⟩
  | osQPost t a =>
      obtain ⟨_, _, ⟨d, rfl, rfl, hmsg⟩, hf, hgot⟩ := hpre
      obtain ⟨v', queue', heff, hseen, hp', h'⟩ := h.post hp src hmsg hf hgot
      exact ⟨v', ⟨heff, hseen⟩, ⟨free, queue', hp'⟩, h', hseen⟩
  | osQAccept t =>
      obtain ⟨hv, _, hgot, _⟩ := hpre
      obtain ⟨v', queue', heff, hseen, hseen', hp', h'⟩ :=
        h.accept (c.job x src v.seen) hp hv hgot t
      exact ⟨v', ⟨heff, hseen⟩, ⟨free, queue', hp'⟩, h', hseen'⟩

/-! ### What an access leaves alone -/

theorem perform_own {y : Tid} (hy : y ≠ x) (job : Option (Post Tid)) (a : Act)
    (s : Shared Tid) : (s.perform x job a).2.own y = s.own y := by
  cases a with
  | load n a => rfl
  | store n a w => rfl
  | osMemGet p =>
      simp only [Shared.perform]
      split
      · exact Function.update_of_ne hy _ _
      · rfl
  | osMemPut p b =>
      simp only [Shared.perform]
      split
      · exact Function.update_of_ne hy _ _
      · rfl
  | osQPost t a =>
      simp only [Shared.perform]
      split
      · exact Function.update_of_ne hy _ _
      · rfl
  | osQAccept t =>
      simp only [Shared.perform]
      split
      · exact Function.update_of_ne hy _ _
      · rfl

theorem perform_mem {a : Act} (hpre : (callSpec L c).pre v a) (job : Option (Post Tid))
    (s : Shared Tid) {y : ℕ} (hy : ∀ b ∈ v.got, ¬ L.InBlock b y) :
    (s.perform x job a).2.kernel.mem y = s.kernel.mem y := by
  cases a with
  | load n a => rfl
  | store n a w =>
      obtain ⟨_, b, hb, hw⟩ := hpre
      exact store_of_not_inBlock hw (hy b hb)
  | osMemGet p => rfl
  | osMemPut p b =>
      obtain ⟨_, hb, hblock⟩ := hpre
      simp only [Shared.perform, access, osMemPut]
      split
      · rfl
      · exact store_of_not_inBlock hblock.within_link (hy b hb)
  | osQPost t a => rfl
  | osQAccept t => rfl

end Stm32Templet.Sys
