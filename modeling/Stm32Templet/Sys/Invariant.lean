import Stm32Templet.Sys.Machine

/-! # What every reachable state satisfies

The pools are in order (`Shared.Sound`), and every task is (`TaskOk`): the messages it holds
are well formed and as they were received, and what it owns is what it holds, together with
the blocks of the call that is running, which is safe from here on.  Each event keeps this
(`Machine.Ok.step`), so every reachable state satisfies it (`ok_of_reachable`). -/

namespace Stm32Templet.Sys

open Memory Os Tasks Atomic Places Runs

variable {L : Layout} {m m' : Mem} {a b : ℕ}

/-! ### Held messages -/

/-- The four fields of the head. -/
def Msg.head (m : Msg) : ℕ × ℕ × ℕ × ℕ := (m.message, m.para0, m.para1, m.len)

/-- A message in the hands of its receiver. -/
structure HeldOk (L : Layout) (m : Mem) (h : Held) : Prop where
  formed : Formed L m h.pMessage
  head : (decode m h.pMessage).head = h.msg.head
  intact : h.touched = false → decode m h.pMessage = h.msg

theorem HeldOk.congr {h : Held} (hok : HeldOk L m h)
    (hs : Same L m m' (msgBlocks m h.pMessage)) : HeldOk L m' h where
  formed := hok.formed.congr hs
  head := decode_congr hok.formed hs ▸ hok.head
  intact := decode_congr hok.formed hs ▸ hok.intact

section Fixed

variable (hm : ∀ y, Fixed m a y → m y = m' y)

include hm

theorem load_of_fixed {i : ℕ} (hi : i + 2 ≤ HEAD_SIZE) : load m 2 (a + i) = load m' 2 (a + i) := by
  apply load_congr
  intro k hk
  apply hm
  refine ⟨by omega, ?_⟩
  have hle : HEAD_SIZE ≤ if Split (headLen m a) then HEAD_SIZE + 4 else HEAD_SIZE := by
    split <;> omega
  omega

theorem headLen_of_fixed : headLen m a = headLen m' a := load_of_fixed hm (by decide)

theorem head_of_fixed : (decode m a).head = (decode m' a).head := by
  have h0 := load_of_fixed hm (i := 0) (by decide)
  have h2 := load_of_fixed hm (i := 2) (by decide)
  have h4 := load_of_fixed hm (i := 4) (by decide)
  rw [Nat.add_zero] at h0
  unfold Msg.head decode
  simp only [h0, h2, h4, headLen_of_fixed hm]

theorem dataPtr_of_fixed (hsplit : Split (headLen m a)) : dataPtr m a = dataPtr m' a := by
  apply load_congr
  intro k hk
  apply hm
  refine ⟨by omega, ?_⟩
  rw [if_pos hsplit]
  omega

theorem msgBlocks_of_fixed : msgBlocks m a = msgBlocks m' a := by
  unfold msgBlocks
  rw [← headLen_of_fixed hm]
  split
  · rename_i hsplit
    rw [dataPtr_of_fixed hm hsplit]
  · rfl

theorem Formed.of_fixed (hf : Formed L m a) : Formed L m' a := by
  refine ⟨hf.block, fun hsplit => ?_⟩
  rw [← headLen_of_fixed hm] at hsplit ⊢
  rw [← dataPtr_of_fixed hm hsplit]
  exact hf.payload hsplit

end Fixed

theorem HeldOk.write {h : Held} (hok : HeldOk L m h) {y : ℕ} (hy : ¬ Fixed m h.pMessage y)
    (w : UInt8) : HeldOk L (Function.update m y w) (h.write L m y) := by
  have hm : ∀ z, Fixed m h.pMessage z → m z = Function.update m y w z := by
    intro z hz
    refine (Function.update_of_ne ?_ _ _).symm
    rintro rfl
    exact hy hz
  refine ⟨hok.formed.of_fixed hm, (head_of_fixed hm).symm.trans hok.head, ?_⟩
  intro ht
  simp only [Held.write, Bool.or_eq_false_iff, decide_eq_false_iff_not] at ht
  obtain ⟨ht, hout⟩ := ht
  refine (decode_congr hok.formed ?_).symm.trans (hok.intact ht)
  intro b hb z hz
  refine (Function.update_of_ne ?_ _ _).symm
  rintro rfl
  exact hout ⟨b, hb, hz⟩

/-! ### The invariant -/

/-- What holds of a task. -/
structure TaskOk (L : Layout) {Tid : Type} (s : Shared Tid) (x : Tid) (ts : TaskState) :
    Prop where
  held : ∀ h ∈ ts.held, HeldOk L s.kernel.mem h
  blks : ∀ b ∈ ts.blks, L.IsBlock b
  idle : ts.run = none → (s.own x).Perm (ts.blocks s.kernel.mem)
  busy : ∀ r, ts.run = some r → ∃ v, Acting L x (ts.blocks s.kernel.mem) s v ∧
    v.seen = r.seen ∧ Safe (callSpec L r.call) (r.call.Done L) r.prog v

structure Machine.Ok (L : Layout) {Tid : Type} (s : Machine Tid) : Prop where
  sound : s.shared.Sound L
  task : ∀ x, TaskOk L s.shared x (s.task x)

variable {Tid : Type} {s s' : Shared Tid} {x : Tid} {ts : TaskState}
  {free : Partition → List ℕ} {queue : Fin TASK_NUM → List ℕ}

theorem TaskOk.blocks_own (h : TaskOk L s x ts) (hb : b ∈ ts.blocks s.kernel.mem) :
    b ∈ s.own x := by
  cases hrun : ts.run with
  | none => exact (h.idle hrun).mem_iff.mpr hb
  | some r =>
      obtain ⟨v, hact, _⟩ := h.busy r hrun
      exact hact.own.mem_iff.mpr (List.mem_append_right _ hb)

theorem TaskState.mem_blocks {h : Held} (hh : h ∈ ts.held) (hb : b ∈ msgBlocks m h.pMessage) :
    b ∈ ts.blocks m :=
  List.mem_append_left _ (List.mem_flatMap.mpr ⟨h, hh, hb⟩)

/-- The list of blocks depends on the fixed parts only. -/
theorem TaskState.blocks_congr
    (hm : ∀ h ∈ ts.held, msgBlocks m h.pMessage = msgBlocks m' h.pMessage) :
    ts.blocks m = ts.blocks m' :=
  congrArg (· ++ ts.blks) (List.flatMap_congr hm)

theorem TaskOk.blocks_same (h : TaskOk L s x ts)
    (hs : Same L s.kernel.mem m (ts.blocks s.kernel.mem)) :
    ts.blocks s.kernel.mem = ts.blocks m := by
  apply TaskState.blocks_congr
  intro h' hh
  exact msgBlocks_congr (h.held h' hh).formed fun b hb => hs b (ts.mem_blocks hh hb)

/-- Nothing has happened to what the task owns. -/
theorem TaskOk.congr (h : TaskOk L s x ts) (hown : s'.own x = s.own x)
    (hs : Same L s.kernel.mem s'.kernel.mem (s.own x)) : TaskOk L s' x ts := by
  have hsame : Same L s.kernel.mem s'.kernel.mem (ts.blocks s.kernel.mem) :=
    fun b hb => hs b (h.blocks_own hb)
  have hblocks := h.blocks_same hsame
  refine ⟨fun h' hh => ?_, h.blks, fun hrun => ?_, fun r hrun => ?_⟩
  · exact (h.held h' hh).congr fun b hb => hsame b (ts.mem_blocks hh hb)
  · rw [hown, ← hblocks]
    exact h.idle hrun
  · obtain ⟨v, hact, hseen, hsafe⟩ := h.busy r hrun
    refine ⟨v, ?_, hseen, hsafe⟩
    rw [← hblocks]
    exact hact.of_same hown fun b hb => hs b (hact.got_own hb)

/-! ### A call begins -/

/-- The blocks that a call is to give back leave the task's list. -/
theorem TaskState.call_blocks (h : TaskOk L s x ts) {c : Call} (hmay : ts.May c) :
    ∃ got, c.Ready L ⟨got, s.kernel.mem, Seen.start⟩ ∧
      (ts.blocks s.kernel.mem).Perm
        (got ++ (ts.call L s.kernel.mem c).blocks s.kernel.mem) := by
  cases c with
  | send d => exact ⟨[], rfl, List.Perm.refl _⟩
  | receive t => exact ⟨[], rfl, List.Perm.refl _⟩
  | get size => exact ⟨[], rfl, List.Perm.refl _⟩
  | free pMessage =>
      obtain ⟨g, hg, hp⟩ := hmay
      obtain ⟨e, l₁, l₂, _, he, hl, herase⟩ := List.exists_of_eraseP
        (p := fun g => decide (g.pMessage = pMessage)) hg (decide_eq_true hp)
      have hpe : e.pMessage = pMessage := of_decide_eq_true he
      have hmem : e ∈ ts.held := hl ▸ List.mem_append_right _ List.mem_cons_self
      refine ⟨msgBlocks s.kernel.mem pMessage, ⟨hpe ▸ (h.held e hmem).formed, .refl _⟩, ?_⟩
      show (ts.held.flatMap _ ++ ts.blks).Perm
        (_ ++
          ((ts.held.eraseP fun g : Held => decide (g.pMessage = pMessage)).flatMap _ ++ ts.blks))
      rw [herase, hl, ← List.append_assoc]
      apply List.Perm.append_right
      refine (List.perm_middle.flatMap_right _).trans ?_
      rw [List.flatMap_cons, hpe]
  | put pblk =>
      have hb : pblk ∈ ts.blks := hmay
      refine ⟨[pblk], ⟨h.blks pblk hb, rfl⟩, ?_⟩
      show (_ ++ ts.blks).Perm ([pblk] ++ (_ ++ ts.blks.erase pblk))
      exact ((List.perm_cons_erase hb).append_left _).trans List.perm_middle

theorem TaskState.call_held (c : Call) {g : Held}
    (hg : g ∈ (ts.call L m c).held) : g ∈ ts.held := by
  cases c with
  | free pMessage => exact List.mem_of_mem_eraseP hg
  | _ => exact hg

theorem TaskState.call_blks (c : Call) (hb : b ∈ (ts.call L m c).blks) : b ∈ ts.blks := by
  cases c with
  | put pblk => exact List.mem_of_mem_erase hb
  | _ => exact hb

theorem TaskOk.call (h : TaskOk L s x ts) (hidle : ts.run = none) {c : Call}
    (hmay : ts.May c) : TaskOk L s x (ts.call L s.kernel.mem c) where
  held g hg := h.held g (ts.call_held c hg)
  blks b hb := h.blks b (ts.call_blks c hb)
  idle hrun := by cases hrun
  busy := by
    rintro r hr
    obtain rfl := Option.some.inj hr
    obtain ⟨got, hready, hperm⟩ := TaskState.call_blocks h hmay
    refine ⟨⟨got, s.kernel.mem, Seen.start⟩, ?_, rfl, safe_call c hready rfl⟩
    refine ⟨(h.idle hidle).trans hperm, fun _ _ _ _ => rfl, ?_⟩
    rintro a ⟨⟩

/-! ### A call makes an access -/

variable [DecidableEq Tid]

/-- Blocks that do not belong to the call. -/
theorem same_perform {c : Call} {v : View} {a : Act} (hpre : (callSpec L c).pre v a)
    (job : Option (Post Tid)) (s : Shared Tid) {bs : List ℕ} (hbs : ∀ b ∈ bs, b ∉ v.got) :
    Same L s.kernel.mem (s.perform x job a).2.kernel.mem bs := by
  intro b hb y hy
  refine (perform_mem hpre job s fun c hc hin => ?_).symm
  exact hbs b hb (hy.unique hin ▸ hc)

/-- One task has made a step, the others are as before. -/
theorem Machine.Ok.set {s : Machine Tid} {shared : Shared Tid} (hsound : shared.Sound L)
    (hx : TaskOk L shared x ts) (hother : ∀ y, y ≠ x → TaskOk L shared y (s.task y)) :
    (s.set shared x ts).Ok L := by
  refine ⟨hsound, fun y => ?_⟩
  by_cases hy : y = x
  · subst hy
    rw [set_task_self]
    exact hx
  · rw [set_task_of_ne _ _ hy]
    exact hother y hy

omit [DecidableEq Tid] in
theorem Pools.own_unique (hp : Pools L s free queue) {y : Tid} (hx : b ∈ s.own x)
    (hy : b ∈ s.own y) : x = y := by
  have hx' : b ∈ s.placed free queue (.task x) := hx
  have hy' : b ∈ s.placed free queue (.task y) := hy
  exact Place.task.inj (hp.places.unique hx' hy')

/-- An access leaves alone what the tasks hold outside their calls. -/
theorem Machine.Ok.act_same {s : Machine Tid} (h : s.Ok L) {c : Call} {a : Act}
    {k : a.Res → Prog sig (ℕ × ℕ)} {src : Option (List UInt8)} {seen : Seen}
    (hrun : (s.task x).run = some ⟨c, .act a k, src, seen⟩) (y : Tid) :
    Same L s.shared.kernel.mem (turn x c src a (s.shared, seen)).2.1.kernel.mem
      ((s.task y).blocks s.shared.kernel.mem) := by
  obtain ⟨v, hact, _, hpre, _⟩ := (h.task x).busy _ hrun
  obtain ⟨free, queue, hp⟩ := h.sound
  apply same_perform hpre
  intro b hb hb'
  by_cases hy : y = x
  · subst hy
    exact (List.nodup_append.mp (hact.nodup hp)).2.2 b hb' b hb rfl
  · exact hy (hp.own_unique ((h.task y).blocks_own hb) (hact.got_own hb'))

theorem Machine.Ok.act {s : Machine Tid} (h : s.Ok L) {c : Call} {a : Act}
    {k : a.Res → Prog sig (ℕ × ℕ)} {src : Option (List UInt8)} {seen : Seen}
    (hrun : (s.task x).run = some ⟨c, .act a k, src, seen⟩) :
    let r := turn x c src a (s.shared, seen)
    (s.set r.2.1 x { s.task x with run := some ⟨c, k r.1, src, r.2.2⟩ }).Ok L := by
  intro r
  obtain ⟨v, hact, hseen, hsafe⟩ := (h.task x).busy _ hrun
  obtain ⟨free, queue, hp⟩ := h.sound
  have hpre : (callSpec L c).pre v a := hsafe.1
  obtain ⟨v', _, ⟨hsound', hact', hseen'⟩, hsafe'⟩ :=
    hsafe.step (call_sound L x _ c src) (s := (s.shared, seen)) ⟨h.sound, hact, hseen⟩
  apply Machine.Ok.set hsound'
  · have hsame := h.act_same hrun x
    have hblocks := (h.task x).blocks_same hsame
    refine ⟨fun g hg => ?_, (h.task x).blks, fun hidle => ?_, fun r' hr' => ?_⟩
    · exact ((h.task x).held g hg).congr fun b hb => hsame b (TaskState.mem_blocks hg hb)
    · cases hidle
    · obtain rfl := Option.some.inj hr'
      refine ⟨v', ?_, hseen', hsafe'⟩
      show Acting L x ((s.task x).blocks r.2.1.kernel.mem) r.2.1 v'
      rw [← hblocks]
      exact hact'
  · intro y hy
    refine (h.task y).congr (perform_own hy _ a s.shared) ?_
    apply same_perform hpre
    intro b hb hb'
    exact hy (hp.own_unique hb (hact.got_own hb'))

/-! ### A call returns -/

omit [DecidableEq Tid] in
theorem TaskOk.ret (h : TaskOk L s x ts) {c : Call} {r : ℕ × ℕ} {src : Option (List UInt8)}
    {seen : Seen} (hrun : ts.run = some ⟨c, .ret r, src, seen⟩) :
    TaskOk L s x (ts.ret s.kernel.mem c r) := by
  obtain ⟨v, hact, hseen, hdone⟩ := h.busy _ hrun
  have hnone : v.got = [] → (s.own x).Perm (ts.blocks s.kernel.mem) := by
    intro hgot
    have hown := hact.own
    rwa [hgot, List.nil_append] at hown
  have hback : v.got = [] → TaskOk L s x { ts with run := none } := fun hgot =>
    ⟨h.held, h.blks, fun _ => hnone hgot, by rintro _ ⟨⟩⟩
  cases c with
  | send d =>
      exact ⟨h.held, h.blks, fun _ => hnone hdone.1, by rintro _ ⟨⟩⟩
  | free pMessage => exact hback hdone.2.1
  | put pblk => exact hback hdone.2.1
  | get size =>
      show TaskOk L s x (if r.1 = 0 then _ else _)
      obtain ⟨_, _, ⟨hr, _, hgot⟩ | ⟨_, hblock, hgot⟩⟩ := hdone
      · rw [if_pos hr]
        exact hback hgot
      · rw [if_neg hblock.pos.ne']
        refine ⟨h.held, fun b hb => ?_, fun _ => ?_, by rintro _ ⟨⟩⟩
        · rcases List.mem_cons.mp hb with rfl | hb
          · exact ⟨_, hblock⟩
          · exact h.blks b hb
        · have hown := hact.own
          rw [hgot] at hown
          have hfront : (ts.held.flatMap (fun g => msgBlocks s.kernel.mem g.pMessage) ++
              r.1 :: ts.blks).Perm (r.1 :: ts.blocks s.kernel.mem) := List.perm_middle
          exact hown.trans hfront.symm
  | receive t =>
      show TaskOk L s x (if r.1 = 0 then _ else _)
      obtain ⟨_, ⟨hr, hgot, _⟩ | ⟨hr, hf, hgot, _⟩⟩ := hdone
      · rw [if_pos hr]
        exact hback hgot
      · rw [if_neg hr]
        have hsame := hact.same_message (List.Perm.of_eq hgot)
        have hblocks := msgBlocks_congr hf hsame
        refine ⟨fun g hg => ?_, h.blks, fun _ => ?_, by rintro _ ⟨⟩⟩
        · rcases List.mem_cons.mp hg with rfl | hg
          · exact ⟨hf.congr hsame, rfl, fun _ => rfl⟩
          · exact h.held g hg
        · have hown := hact.own
          rw [hgot, hblocks] at hown
          show (s.own x).Perm ((msgBlocks s.kernel.mem r.1 ++ _) ++ ts.blks)
          rwa [List.append_assoc]

/-! ### A task writes -/

omit [DecidableEq Tid] in
theorem TaskState.write_blocks (hmay : ts.MayWrite L m a) (w : UInt8) :
    ts.blocks m = TaskState.blocks (Function.update m a w)
      { ts with held := ts.held.map (.write L m a) } := by
  have hfixed : ∀ g ∈ ts.held, ∀ y, Fixed m g.pMessage y →
      m y = Function.update m a w y := by
    intro g hg y hy
    refine (Function.update_of_ne ?_ _ _).symm
    rintro rfl
    exact hmay.2 g hg hy
  refine (TaskState.blocks_congr fun g hg => msgBlocks_of_fixed (hfixed g hg)).trans ?_
  show (ts.held.flatMap _) ++ ts.blks = (ts.held.map _).flatMap _ ++ ts.blks
  rw [List.flatMap_map]
  rfl

omit [DecidableEq Tid] in
theorem TaskOk.write (h : TaskOk L s x ts) (hp : Pools L s free queue)
    (hmay : ts.MayWrite L s.kernel.mem a) (w : UInt8) :
    TaskOk L { s with kernel.mem := Function.update s.kernel.mem a w } x
      { ts with held := ts.held.map (.write L s.kernel.mem a) } := by
  have hblocks := TaskState.write_blocks hmay w
  refine ⟨fun g hg => ?_, h.blks, fun hidle => ?_, fun r hr => ?_⟩
  · obtain ⟨g', hg', rfl⟩ := List.mem_map.mp hg
    exact (h.held g' hg').write (hmay.2 g' hg') w
  · rw [← hblocks]
    exact h.idle hidle
  · obtain ⟨v, hact, hseen, hsafe⟩ := h.busy r hr
    refine ⟨v, ?_, hseen, hsafe⟩
    rw [← hblocks]
    refine hact.of_same rfl fun b hb y hy => ?_
    refine (Function.update_of_ne ?_ _ _).symm
    rintro rfl
    -- the blocks of the call are not among those that may be written
    rcases hmay.1 with hout | ⟨c, hc, hin⟩
    · exact hy.not_outside hout
    · obtain rfl := hy.unique hin
      exact (List.nodup_append.mp (hact.nodup hp)).2.2 b hb b hc rfl

omit [DecidableEq Tid] in
theorem Machine.Ok.write_own {s : Machine Tid} (h : s.Ok L)
    (hmay : (s.task x).MayWrite L s.shared.kernel.mem a) (hb : L.InBlock b a) :
    b ∈ s.shared.own x := by
  rcases hmay.1 with hout | ⟨c, hc, hin⟩
  · exact absurd hout hb.not_outside
  · obtain rfl := hb.unique hin
    exact (h.task x).blocks_own hc

omit [DecidableEq Tid] in
theorem Machine.Ok.write_same_own {s : Machine Tid} (h : s.Ok L)
    (hmay : (s.task x).MayWrite L s.shared.kernel.mem a) (w : UInt8) {y : Tid} (hy : y ≠ x) :
    Same L s.shared.kernel.mem (Function.update s.shared.kernel.mem a w) (s.shared.own y) := by
  obtain ⟨free, queue, hp⟩ := h.sound
  intro b hb z hz
  refine (Function.update_of_ne ?_ _ _).symm
  rintro rfl
  exact hy (hp.own_unique hb (h.write_own hmay hz))

omit [DecidableEq Tid] in
theorem Machine.Ok.write_same {s : Machine Tid} (h : s.Ok L)
    (hmay : (s.task x).MayWrite L s.shared.kernel.mem a) (w : UInt8) {y : Tid} (hy : y ≠ x) :
    Same L s.shared.kernel.mem (Function.update s.shared.kernel.mem a w)
      ((s.task y).blocks s.shared.kernel.mem) :=
  fun b hb => h.write_same_own hmay w hy b ((h.task y).blocks_own hb)

theorem Machine.Ok.write {s : Machine Tid} (h : s.Ok L)
    (hmay : (s.task x).MayWrite L s.shared.kernel.mem a) (w : UInt8) :
    (s.set { s.shared with kernel.mem := Function.update s.shared.kernel.mem a w } x
      { s.task x with held := (s.task x).held.map (.write L s.shared.kernel.mem a) }).Ok L := by
  obtain ⟨free, queue, hp⟩ := h.sound
  apply Machine.Ok.set
  · refine ⟨free, queue, hp.congr_own (x := x) _ (fun b hb => hb) fun y hy hin => ?_⟩
    refine (Function.update_of_ne ?_ _ _).symm
    rintro rfl
    rcases hmay.1 with hout | ⟨c, hc, hin'⟩
    · exact hin hout
    · exact hy c ((h.task x).blocks_own hc) hin'
  · exact (h.task x).write hp hmay w
  · exact fun y hy => (h.task y).congr rfl (h.write_same_own hmay w hy)

/-! ### Every event -/

omit [DecidableEq Tid] in
theorem Machine.Ok.watch {s : Machine Tid} (h : s.Ok L) : s.watch.Ok L where
  sound := h.sound
  task x := by
    refine ⟨(h.task x).held, (h.task x).blks, fun hidle => ?_, fun r hr => ?_⟩
    · exact (h.task x).idle (Option.map_eq_none_iff.mp hidle)
    · obtain ⟨r', hr', rfl⟩ := Option.map_eq_some_iff.mp hr
      exact (h.task x).busy r' hr'

/-- What a task holds outside its calls changes when it begins or ends a call, only. -/
theorem Machine.Ok.blocks_step {s s' : Machine Tid} (h : s.Ok L) {e : Event Tid}
    (hs : s.step L e = some s') {y : Tid} (hcall : ∀ c, e ≠ .call y c) (hret : e ≠ .ret y) :
    (s'.task y).blocks s'.shared.kernel.mem = (s.task y).blocks s.shared.kernel.mem := by
  obtain ⟨t, ht, rfl⟩ := step_eq hs
  show (t.task y).blocks t.shared.kernel.mem = _
  cases e with
  | call x c =>
      obtain ⟨_, _, rfl⟩ := next_call ht
      have hy : y ≠ x := by
        rintro rfl
        exact hcall c rfl
      rw [set_task_of_ne _ _ hy]
      rfl
  | ret x =>
      obtain ⟨c, r, src, seen, hrun, rfl⟩ := next_ret ht
      have hy : y ≠ x := by
        rintro rfl
        exact hret rfl
      rw [set_task_of_ne _ _ hy]
      rfl
  | act x =>
      obtain ⟨c, a, k, src, seen, hrun, rfl⟩ := next_act ht
      refine Eq.trans ?_ ((h.task y).blocks_same (h.act_same hrun y)).symm
      by_cases hy : y = x
      · subst hy
        rw [set_task_self]
        rfl
      · rw [set_task_of_ne _ _ hy]
        rfl
  | write x a b =>
      obtain ⟨hmay, rfl⟩ := next_write ht
      by_cases hy : y = x
      · subst hy
        rw [set_task_self]
        exact (TaskState.write_blocks hmay b).symm
      · rw [set_task_of_ne _ _ hy]
        exact ((h.task y).blocks_same (h.write_same hmay b hy)).symm

theorem Machine.Ok.step {s s' : Machine Tid} (h : s.Ok L) {e : Event Tid}
    (hs : s.step L e = some s') : s'.Ok L := by
  obtain ⟨t, ht, rfl⟩ := step_eq hs
  apply Machine.Ok.watch
  cases e with
  | call x c =>
      obtain ⟨hidle, hmay, rfl⟩ := next_call ht
      exact .set h.sound ((h.task x).call hidle hmay) fun y _ => h.task y
  | act x =>
      obtain ⟨c, a, k, src, seen, hrun, rfl⟩ := next_act ht
      exact h.act hrun
  | ret x =>
      obtain ⟨c, r, src, seen, hrun, rfl⟩ := next_ret ht
      exact .set h.sound ((h.task x).ret hrun) fun y _ => h.task y
  | write x a b =>
      obtain ⟨hmay, rfl⟩ := next_write ht
      exact h.write hmay b

/-! ### What an event leaves alone -/

/-- The task that an event belongs to. -/
def Event.tid : Event Tid → Tid
  | .call x _ => x
  | .act x => x
  | .ret x => x
  | .write x _ _ => x

/-- The other tasks, apart from the record of their sources. -/
theorem step_other {s s' : Machine Tid} {e : Event Tid} (hs : s.step L e = some s') {y : Tid}
    (hy : y ≠ e.tid) : s'.task y = (s.task y).watch s'.shared.kernel.mem := by
  obtain ⟨t, ht, rfl⟩ := step_eq hs
  have htask : t.task y = s.task y := by
    cases e with
    | call x c =>
        obtain ⟨_, _, rfl⟩ := next_call ht
        exact Machine.set_task_of_ne _ _ hy _
    | act x =>
        obtain ⟨c, a, k, src, seen, _, rfl⟩ := next_act ht
        exact Machine.set_task_of_ne _ _ hy _
    | ret x =>
        obtain ⟨c, r, src, seen, _, rfl⟩ := next_ret ht
        exact Machine.set_task_of_ne _ _ hy _
    | write x a b =>
        obtain ⟨_, rfl⟩ := next_write ht
        exact Machine.set_task_of_ne _ _ hy _
  exact congrArg (TaskState.watch t.shared.kernel.mem) htask

/-- Memory outside the pools changes only where it is written to. -/
theorem Machine.Ok.step_outside {s s' : Machine Tid} (h : s.Ok L) {e : Event Tid}
    (hs : s.step L e = some s') {y : ℕ} (hout : L.Outside y)
    (hwrite : ∀ x w, e ≠ .write x y w) :
    s'.shared.kernel.mem y = s.shared.kernel.mem y := by
  obtain ⟨t, ht, rfl⟩ := step_eq hs
  cases e with
  | call x c =>
      obtain ⟨_, _, rfl⟩ := next_call ht
      rfl
  | act x =>
      obtain ⟨c, a, k, src, seen, hrun, rfl⟩ := next_act ht
      obtain ⟨v, _, _, hpre, _⟩ := (h.task x).busy _ hrun
      exact perform_mem hpre _ s.shared fun b _ hin => hin.not_outside hout
  | ret x =>
      obtain ⟨c, r, src, seen, _, rfl⟩ := next_ret ht
      rfl
  | write x a w =>
      obtain ⟨_, rfl⟩ := next_write ht
      refine Function.update_of_ne ?_ _ _
      rintro rfl
      exact hwrite x w rfl

/-- A task that neither begins nor ends a call. -/
theorem step_task {s s' : Machine Tid} {y : Tid} {e : Event Tid} (hs : s.step L e = some s')
    (hcall : ∀ c, e ≠ .call y c) (hret : e ≠ .ret y) :
    s'.task y = (s.task y).watch s'.shared.kernel.mem ∨
      (∃ r prog seen, e = .act y ∧ (s.task y).run = some r ∧
        s'.task y = TaskState.watch s'.shared.kernel.mem
          { s.task y with run := some { r with prog := prog, seen := seen } }) ∨
      ∃ a w, e = .write y a w ∧
        s'.task y = TaskState.watch s'.shared.kernel.mem
          { s.task y with held := (s.task y).held.map (.write L s.shared.kernel.mem a) } := by
  by_cases hy : y = e.tid
  · cases e with
    | call x c =>
        obtain rfl : y = x := hy
        exact absurd rfl (hcall c)
    | ret x =>
        obtain rfl : y = x := hy
        exact absurd rfl hret
    | act x =>
        obtain rfl : y = x := hy
        obtain ⟨c, a, k, src, seen, hrun, _, htask⟩ := step_act hs
        exact Or.inr (Or.inl ⟨_, _, _, rfl, hrun, htask⟩)
    | write x a w =>
        obtain rfl : y = x := hy
        obtain ⟨t, ht, rfl⟩ := step_eq hs
        obtain ⟨_, rfl⟩ := next_write ht
        refine Or.inr (Or.inr ⟨a, w, rfl, ?_⟩)
        exact congrArg (TaskState.watch _) (Machine.set_task_self s _ y _)
  · exact Or.inl (step_other hs hy)

/-- A call that is running was running before, or it has just begun. -/
theorem run_step {s s' : Machine Tid} {y : Tid} {e : Event Tid} (hs : s.step L e = some s')
    {r : Running} (hr : (s'.task y).run = some r) (hcall : ∀ c, e ≠ .call y c) :
    e ≠ .ret y ∧ ∃ r₀, (s.task y).run = some r₀ ∧ r₀.call = r.call := by
  have hret : e ≠ .ret y := by
    rintro rfl
    obtain ⟨c, v, src, seen, _, _, htask⟩ := step_ret hs
    rw [htask, TaskState.ret_run] at hr
    cases hr
  refine ⟨hret, ?_⟩
  rcases step_task hs hcall hret with h | ⟨r₀, prog, seen, _, hr₀, h⟩ | ⟨a, w, _, h⟩
  · rw [h] at hr
    obtain ⟨r₀, hr₀, rfl⟩ := Option.map_eq_some_iff.mp hr
    exact ⟨r₀, hr₀, rfl⟩
  · rw [h] at hr
    obtain rfl := Option.some.inj hr
    exact ⟨r₀, hr₀, rfl⟩
  · rw [h] at hr
    obtain ⟨r₀, hr₀, rfl⟩ := Option.map_eq_some_iff.mp hr
    exact ⟨r₀, hr₀, rfl⟩

omit [DecidableEq Tid] in
/-- At the start all blocks are free and all queues are empty. -/
theorem pools_start (L : Layout) (mem : Mem) (OSQ_MSG : Fin TASK_NUM → ℕ → ℕ) :
    Pools L (Machine.start L mem OSQ_MSG : Machine Tid).shared L.blocks fun _ => [] where
  lists := lists_sysStart L mem OSQ_MSG
  rep t := queue_osQCreate (by decide) (OSQ_MSG t)
  size _ := rfl
  formed t a ha := absurd ha List.not_mem_nil
  places := by
    refine ⟨fun i => ?_, fun {i b} hb => ?_, fun {b} hb => ?_, fun {i j b} hi hj => ?_⟩
    · cases i with
      | free p => exact L.nodup_blocks p
      | task x => exact List.nodup_nil
      | queued t => exact List.nodup_nil
    · cases i with
      | free p => exact (L.mem_blocks.mp hb).isBlock
      | task x => cases hb
      | queued t => cases hb
    · obtain ⟨p, hp⟩ := hb
      exact ⟨.free p, L.mem_blocks.mpr hp⟩
    · cases i with
      | free p =>
          cases j with
          | free q => rw [(L.mem_blocks.mp hi).part_unique (L.mem_blocks.mp hj)]
          | task x => cases hj
          | queued t => cases hj
      | task x => cases hi
      | queued t => cases hi
  log _ := rfl

omit [DecidableEq Tid] in
theorem ok_start (L : Layout) (mem : Mem) (OSQ_MSG : Fin TASK_NUM → ℕ → ℕ) :
    (Machine.start L mem OSQ_MSG : Machine Tid).Ok L where
  sound := ⟨L.blocks, fun _ => [], pools_start L mem OSQ_MSG⟩
  task x := by
    refine ⟨fun g hg => ?_, fun b hb => ?_, fun _ => List.Perm.refl _, ?_⟩
    · cases hg
    · cases hb
    · rintro r ⟨⟩

theorem ok_of_reachable {s : Machine Tid} (h : Reachable L s) : s.Ok L := by
  obtain ⟨mem, OSQ_MSG, es, hes⟩ := h
  exact exec_invariant' (fun _ _ _ ht hs => ht.step hs) (ok_start L mem OSQ_MSG) hes

end Stm32Templet.Sys
