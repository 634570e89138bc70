import Stm32Templet.Sys.Ownership
import Mathlib.Data.List.Induction

/-! # The queues are never full

Every message in a queue has a small block of its own, and the message that a call is about to
post has another one; there are `MEM_NUM` of them, not more than places in a queue.  So
`OSQPost` never finds a queue full (`post_succeeds`), and the only access of a call that can
fail is `OSMemGet` (`refused_turn`).  A call of `MSG_Send` that has failed was too long, or one
of its allocations has found no free block (`never_full`). -/

namespace Stm32Templet.Sys

open Memory Os Tasks Atomic Places Runs

variable {Tid : Type} [DecidableEq Tid] {L : Layout} {s s' : Machine Tid} {x : Tid}

/-! ### Which accesses fail -/

/-- The block to be posted and the queued messages are different small blocks, and the post
succeeds. -/
theorem post_succeeds (hok : s.Ok L) {t : Fin TASK_NUM} {b : ℕ} {seen : Seen}
    (h : s.pending x = some (.osQPost t b, seen)) :
    ((b :: s.shared.kernel.queued t).Nodup ∧
        ∀ a ∈ b :: s.shared.kernel.queued t, L.Block .Mem a) ∧
      (access (.osQPost t b) s.shared.kernel).1 = OS_ERR_NONE := by
  obtain ⟨c, k, src, hrun⟩ := pending_eq h
  obtain ⟨v, hact, rfl, hpre, _⟩ := (hok.task x).busy _ hrun
  obtain ⟨free, queue, hp⟩ := hok.sound
  obtain ⟨_, _, ⟨d, rfl, rfl, hmsg⟩, hf, hgot⟩ := hpre
  have hsame := hact.same_message hgot
  have hblocks := msgBlocks_congr hf hsame
  have hown : ∀ b' ∈ msgBlocks s.shared.kernel.mem b, b' ∈ s.shared.own x := fun b' hb' =>
    hact.got_own (hgot.mem_iff.mpr (hblocks ▸ hb'))
  have hplace : b ∈ s.shared.placed free queue (.task x) := hown b (mem_msgBlocks _ b)
  have hroom := hp.queue_room (t := d.task) hf.block hplace (by simp)
  obtain ⟨s₁, hpost, _⟩ := hp.post (x := x) (e := ⟨x, d, v.seen.read, src⟩) hroom
    (hf.congr hsame) hown rfl ((decode_congr hf hsame).symm.trans hmsg)
  refine ⟨?_, congrArg Prod.fst hpost⟩
  rw [hp.queued_eq]
  exact hp.queued_apart hf.block hplace (by simp)

/-- An access fails if and only if it is an allocation from an empty free list. -/
theorem refused_turn (hok : s.Ok L) {c : Call} {a : Act} {k : a.Res → Prog sig (ℕ × ℕ)}
    {src : Option (List UInt8)} {seen : Seen}
    (hrun : (s.task x).run = some ⟨c, .act a k, src, seen⟩) :
    (turn x c src a (s.shared, seen)).2.2.refused = false ↔
      seen.refused = false ∧ ∀ p, a = .osMemGet p → s.shared.kernel.freeList p ≠ [] := by
  obtain ⟨free, queue, hp⟩ := hok.sound
  have hsame : ∀ {seen' : Seen}, seen'.refused = seen.refused →
      (∀ p, a ≠ .osMemGet p) → (seen'.refused = false ↔
        seen.refused = false ∧ ∀ p, a = .osMemGet p → s.shared.kernel.freeList p ≠ []) := by
    intro seen' h hne
    rw [h]
    exact (and_iff_left fun p hget => absurd hget (hne p)).symm
  cases a with
  | load n b => exact hsame (by simp only [turn, Seen.after]; split <;> rfl) (by simp)
  | store n b w => exact hsame rfl (by simp)
  | osMemPut p b => exact hsame rfl (by simp)
  | osQAccept q => exact hsame (by simp only [turn, Seen.after]; split <;> rfl) (by simp)
  | osMemGet p =>
      have hfree := hp.freeList_eq p
      cases hl : free p with
      | nil =>
          have hget := hp.get_nil (x := x) (c.job x src seen) hl
          have hrefused : (turn x c src (.osMemGet p) (s.shared, seen)).2.2.refused = true := by
            simp only [turn, hget]
            rfl
          rw [hrefused]
          refine iff_of_false (by simp) fun h => h.2 p rfl ?_
          rw [hfree, hl]
      | cons b l =>
          obtain ⟨s', hget, _⟩ := hp.get (x := x) (c.job x src seen) hl
          have hseen : (turn x c src (.osMemGet p) (s.shared, seen)).2.2 = seen := by
            simp only [turn, hget]
            rfl
          rw [hseen]
          refine (and_iff_left ?_).symm
          rintro q ⟨⟩
          rw [hfree, hl]
          exact List.cons_ne_nil b l
  | osQPost q b =>
      refine hsame ?_ (by simp)
      have hpost : (s.shared.perform x (c.job x src seen) (.osQPost q b)).1 = 0 :=
        (post_succeeds hok (pending_of_run hrun)).2
      simp only [turn, Seen.after, hpost, if_true]

/-! ### Why a call has failed -/

/-- In the run `es`, during the last call of `x`, an allocation has found no free block. -/
def Starved (L : Layout) (s₀ : Machine Tid) (es : List (Event Tid)) (x : Tid) : Prop :=
  ∃ es₁ es₂ s₁ p seen, es = es₁ ++ .act x :: es₂ ∧ (∀ c, .call x c ∉ es₂) ∧
    exec (Machine.step L) s₀ es₁ = some s₁ ∧
    s₁.pending x = some (.osMemGet p, seen) ∧ s₁.shared.kernel.freeList p = []

theorem Starved.concat {s₀ : Machine Tid} {es : List (Event Tid)} (h : Starved L s₀ es x)
    {e : Event Tid} (he : ∀ c, e ≠ .call x c) : Starved L s₀ (es ++ [e]) x := by
  obtain ⟨es₁, es₂, s₁, p, seen, rfl, hcall, hs₁, hpending, hfree⟩ := h
  refine ⟨es₁, es₂ ++ [e], s₁, p, seen, by simp, fun c hc => ?_, hs₁, hpending, hfree⟩
  rcases List.mem_append.mp hc with hc | hc
  · exact hcall c hc
  · exact he c (List.mem_singleton.mp hc).symm

/-- The course of a call changes by its own accesses only. -/
theorem seen_step {e : Event Tid} (hs : s.step L e = some s') (hcall : ∀ c, e ≠ .call x c)
    (hact : e ≠ .act x) {r : Running} (hr : (s'.task x).run = some r) :
    ∃ r₀, (s.task x).run = some r₀ ∧ r₀.seen = r.seen := by
  have hret := (run_step hs hr hcall).1
  rcases step_task hs hcall hret with h | ⟨r₀, prog, seen, rfl, _, _⟩ | ⟨a, w, _, h⟩
  · rw [h] at hr
    obtain ⟨r₀, hr₀, rfl⟩ := Option.map_eq_some_iff.mp hr
    exact ⟨r₀, hr₀, rfl⟩
  · exact absurd rfl hact
  · rw [h] at hr
    obtain ⟨r₀, hr₀, rfl⟩ := Option.map_eq_some_iff.mp hr
    exact ⟨r₀, hr₀, rfl⟩

/-- If an access of a call has failed, it was an allocation from an empty free list. -/
theorem starved_of_refused {s₀ : Machine Tid} (hok : s₀.Ok L)
    (hstart : ∀ y, (s₀.task y).run = none) {es : List (Event Tid)}
    (hs : exec (Machine.step L) s₀ es = some s) {r : Running} (hr : (s.task x).run = some r)
    (hrefused : r.seen.refused = true) : Starved L s₀ es x := by
  induction es using List.reverseRecOn generalizing s r with
  | nil =>
      obtain rfl := Option.some.inj hs
      rw [hstart x] at hr
      cases hr
  | append_singleton es e ih =>
      obtain ⟨t, ht, hstep⟩ := exec_concat.mp hs
      by_cases hcall : ∃ c, e = .call x c
      · obtain ⟨c, rfl⟩ := hcall
        obtain ⟨_, _, _, htask⟩ := step_call hstep
        rw [htask] at hr
        obtain rfl := Option.some.inj hr
        cases hrefused
      rw [not_exists] at hcall
      by_cases hact : e = .act x
      · subst hact
        obtain ⟨c, a, k, src, seen, hrun, _, htask⟩ := step_act hstep
        rw [htask] at hr
        obtain rfl := Option.some.inj hr
        have hrefused : (turn x c src a (t.shared, seen)).2.2.refused = true := hrefused
        have hokt := exec_invariant' (fun _ _ _ h hs => h.step hs) hok ht
        by_cases hbefore : seen.refused = true
        · exact (ih ht hrun hbefore).concat hcall
        · -- the call fails with this access
          by_contra hnot
          have hfalse := (refused_turn hokt hrun).mpr ⟨Bool.eq_false_of_not_eq_true hbefore, by
            rintro p rfl hfree
            exact hnot ⟨es, [], t, p, seen, rfl, fun c => List.not_mem_nil, ht,
              pending_of_run hrun, hfree⟩⟩
          rw [hrefused] at hfalse
          cases hfalse
      · obtain ⟨r₀, hr₀, hseen⟩ := seen_step hstep hcall hact hr
        exact (ih ht hr₀ (hseen ▸ hrefused)).concat hcall

/-! ### Capacity -/

/-- What the number of blocks means for the queues, in the state `s` that the run `es` has
reached. -/
structure NeverFull (L : Layout) (s₀ : Machine Tid) (es : List (Event Tid)) (s : Machine Tid) :
    Prop where
  /-- The block to be posted and the messages in the queue are different small blocks. -/
  apart : ∀ x t b seen, s.pending x = some (.osQPost t b, seen) →
    (b :: s.shared.kernel.queued t).Nodup ∧
      ∀ a ∈ b :: s.shared.kernel.queued t, L.Block .Mem a
  room : ∀ x t b seen, s.pending x = some (.osQPost t b, seen) →
    (s.shared.kernel.queued t).length < MESSAGE_NUM
  post : ∀ x t b seen, s.pending x = some (.osQPost t b, seen) →
    (access (.osQPost t b) s.shared.kernel).1 = OS_ERR_NONE
  /-- A call of `MSG_Send` fails for want of a block or since it is too long. -/
  failure : ∀ x d r src seen, (s.task x).run = some ⟨.send d, .ret r, src, seen⟩ →
    r.2 ≠ OS_ERR_NONE → Starved L s₀ es x ∨ d.len.toNat > MEM_BIG_SIZE

/-- In every state that a run from `SYS_Start` reaches, no queue is full when a call posts to
it. -/
theorem never_full {mem : Mem} {OSQ_MSG : Fin TASK_NUM → ℕ → ℕ} {es : List (Event Tid)}
    (hs : exec (Machine.step L) (Machine.start L mem OSQ_MSG) es = some s) :
    NeverFull L (Machine.start L mem OSQ_MSG) es s := by
  have hstart : (Machine.start L mem OSQ_MSG : Machine Tid).Ok L := ok_start L mem OSQ_MSG
  have hok := ok_of_reachable ⟨mem, OSQ_MSG, es, hs⟩
  refine ⟨fun x t b seen h => (post_succeeds hok h).1, fun x t b seen h => ?_,
    fun x t b seen h => (post_succeeds hok h).2, fun x d r src seen hrun herr => ?_⟩
  · obtain ⟨hnd, hblocks⟩ := (post_succeeds hok h).1
    exact Layout.length_blocks_le hnd hblocks
  · obtain ⟨v, _, rfl, hdone⟩ := (hok.task x).busy _ hrun
    obtain ⟨_, _, ⟨h0, _⟩ | ⟨_, _, hwhy⟩⟩ := hdone
    · exact absurd h0 herr
    · refine hwhy.imp_left fun hrefused => ?_
      exact starved_of_refused hstart (fun _ => rfl) hs hrun hrefused

/-- Task 1 is about to post its message. -/
theorem never_full_before_post :
    ∃ s, exec (Machine.step sideBySide) booted (untilPost.take 10) = some s ∧
      NeverFull sideBySide booted (untilPost.take 10) s := by
  obtain ⟨s, hs⟩ := Option.isSome_iff_exists.mp
    (show (exec (Machine.step sideBySide) booted (untilPost.take 10)).isSome from rfl)
  exact ⟨s, hs, never_full hs⟩

end Stm32Templet.Sys
