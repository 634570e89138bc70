import Stm32Templet.Sys.Delivery

/-! # Who owns the blocks that a call touches

After `OSQPost` has succeeded, `MSG_Send` evaluates `pMessage->head.message` for a debug
print.  The block belongs to the queue by then, or to the receiver, or it is free again, or
somebody else has it.  Every other access of the calls is to a block of the task that makes
it: in a run whose sources are in order all accesses are if and only if no call goes on after
its post (`owned_iff_unposted`). -/

namespace Stm32Templet.Sys

open Memory Os Tasks Atomic Places Runs

variable {Tid : Type} {L : Layout}

/-- The access that the call of a task makes next. -/
def Machine.pending (s : Machine Tid) (x : Tid) : Option (Act × Seen) :=
  match (s.task x).run with
  | some ⟨_, .act a _, _, seen⟩ => some (a, seen)
  | _ => none

/-- The access reads or writes a byte of the block `b`; `OSMemPut` writes a link into it. -/
def Act.Touches (L : Layout) (b : ℕ) : Act → Prop
  | .load n a => ∃ i < n, L.InBlock b (a + i)
  | .store n a _ => ∃ i < n, L.InBlock b (a + i)
  | .osMemPut _ pblk => pblk = b
  | _ => False

/-- A call touches only blocks that its task owns. -/
def Owned (L : Layout) (s : Machine Tid) : Event Tid → Prop
  | .act x => ∀ a seen, s.pending x = some (a, seen) →
      ∀ b, a.Touches L b → b ∈ s.shared.own x
  | _ => True

/-- A call that has posted its message makes no further access. -/
def Unposted (s : Machine Tid) : Event Tid → Prop
  | .act x => ∀ a seen, s.pending x = some (a, seen) → seen.posted = none
  | _ => True

/-- The bytes to be sent are outside the pools or in blocks that the sender holds. -/
def SourceOk (L : Layout) (s : Machine Tid) : Event Tid → Prop
  | .call x (.send d) => ∀ i < d.len.toNat, L.Outside (d.pData + i) ∨
      ∃ b ∈ (s.task x).blocks s.shared.kernel.mem, L.InBlock b (d.pData + i)
  | _ => True

variable {s s' : Machine Tid} {x y : Tid}

theorem pending_eq {a : Act} {seen : Seen} (h : s.pending x = some (a, seen)) :
    ∃ c k src, (s.task x).run = some ⟨c, .act a k, src, seen⟩ := by
  unfold Machine.pending at h
  split at h
  · rename_i c a' k src seen' hrun
    obtain ⟨rfl, rfl⟩ := Prod.mk.inj (Option.some.inj h)
    exact ⟨c, k, src, hrun⟩
  · cases h

theorem pending_of_run {c : Call} {a : Act} {k : a.Res → Prog sig (ℕ × ℕ)}
    {src : Option (List UInt8)} {seen : Seen}
    (hrun : (s.task x).run = some ⟨c, .act a k, src, seen⟩) : s.pending x = some (a, seen) := by
  unfold Machine.pending
  rw [hrun]

/-! ### The sources of the running calls -/

/-- The sources of the calls that are running are in order. -/
def Sourced (L : Layout) (s : Machine Tid) : Prop :=
  ∀ x r d, (s.task x).run = some r → r.call = .send d → ∀ i < d.len.toNat,
    L.Outside (d.pData + i) ∨
      ∃ b ∈ (s.task x).blocks s.shared.kernel.mem, L.InBlock b (d.pData + i)

variable [DecidableEq Tid]

theorem Sourced.step (hok : s.Ok L) (h : Sourced L s) {e : Event Tid} (he : SourceOk L s e)
    (hs : s.step L e = some s') : Sourced L s' := by
  intro y r d hr hd i hi
  by_cases hcall : ∃ c, e = .call y c
  · obtain ⟨c, rfl⟩ := hcall
    obtain ⟨t, ht, rfl⟩ := step_eq hs
    obtain ⟨_, _, rfl⟩ := next_call ht
    obtain ⟨r₁, hr₁, rfl⟩ := Option.map_eq_some_iff.mp hr
    rw [Machine.set_task_self] at hr₁
    obtain rfl := Option.some.inj hr₁
    obtain rfl : c = .send d := hd
    show L.Outside _ ∨ ∃ b ∈ TaskState.blocks s.shared.kernel.mem
      (((s.set _ y _).task y)), L.InBlock b _
    rw [Machine.set_task_self]
    exact he i hi
  · have hcall' : ∀ c, e ≠ .call y c := fun c hc => hcall ⟨c, hc⟩
    obtain ⟨hret, r₀, hr₀, hcall₀⟩ := run_step hs hr hcall'
    rw [hok.blocks_step hs hcall' hret]
    exact h y r₀ d hr₀ (hcall₀.trans hd) i hi

/-! ### One access -/

omit [DecidableEq Tid] in
theorem owned_iff_of_pending (hok : s.Ok L) (hsrc : Sourced L s) {a : Act} {seen : Seen}
    (h : s.pending x = some (a, seen)) :
    (∀ b, a.Touches L b → b ∈ s.shared.own x) ↔ seen.posted = none := by
  obtain ⟨c, k, src, hrun⟩ := pending_eq h
  obtain ⟨v, hact, rfl, hpre, _⟩ := (hok.task x).busy _ hrun
  constructor
  · intro hown
    by_contra hposted
    obtain ⟨p, hp⟩ := Option.ne_none_iff_exists'.mp hposted
    obtain ⟨hblock, hgone⟩ := hact.gone p hp
    cases a with
    | load n y =>
        -- this is the argument of the debug print
        obtain ⟨rfl, rfl⟩ := hpre.1 p hp
        exact hgone (hown y ⟨0, by decide, hblock.inBlock (by decide)⟩)
    | store n y w => exact hposted hpre.1
    | osMemGet q => exact hposted hpre
    | osMemPut q b => exact hposted hpre.1
    | osQPost t b => exact hposted hpre.1
    | osQAccept t => exact hposted hpre.1
  · intro hposted b htouch
    have hgot : ∀ {b' y i}, b' ∈ v.got → ∀ n, L.Within b' y n → i < n →
        L.InBlock b (y + i) → b ∈ s.shared.own x := by
      intro b' y i hb' n hw hi hin
      obtain rfl := hin.unique (hw.inBlock hi)
      exact hact.got_own hb'
    cases a with
    | load n y =>
        obtain ⟨i, hi, hin⟩ := htouch
        rcases hpre.2 hposted with ⟨_, b', hb', hw⟩ | ⟨rfl, d, rfl, hlt, rfl⟩
        · exact hgot hb' n hw hi hin
        · obtain rfl : i = 0 := by omega
          rcases hsrc x _ d hrun rfl _ hlt with hout | ⟨b', hb', hin'⟩
          · exact absurd hout hin.not_outside
          · obtain rfl := hin.unique hin'
            exact (hok.task x).blocks_own hb'
    | store n y w =>
        obtain ⟨i, hi, hin⟩ := htouch
        obtain ⟨_, b', hb', hw⟩ := hpre
        exact hgot hb' n hw hi hin
    | osMemPut q b' =>
        obtain rfl : b' = b := htouch
        exact hact.got_own hpre.2.1
    | osMemGet q => cases htouch
    | osQPost t b' => cases htouch
    | osQAccept t => cases htouch

omit [DecidableEq Tid] in
theorem owned_iff (hok : s.Ok L) (hsrc : Sourced L s) (e : Event Tid) :
    Owned L s e ↔ Unposted s e := by
  cases e with
  | act x =>
      refine forall_congr' fun a => forall_congr' fun seen => ?_
      exact forall_congr' fun h => owned_iff_of_pending hok hsrc h
  | call x c => exact Iff.rfl
  | ret x => exact Iff.rfl
  | write x a b => exact Iff.rfl

/-! ### Runs -/

theorem along_owned_iff (hok : s.Ok L) (hsrc : Sourced L s) {es : List (Event Tid)}
    (h : Along (Machine.step L) (SourceOk L) s es) :
    Along (Machine.step L) (Owned L) s es ↔ Along (Machine.step L) Unposted s es :=
  along_congr (I := fun s => s.Ok L ∧ Sourced L s)
    (fun _ _ _ hI he hs => ⟨hI.1.step hs, hI.2.step hI.1 he hs⟩)
    (fun _ e hI _ => owned_iff hI.1 hI.2 e) ⟨hok, hsrc⟩ h

/-- In a run from `SYS_Start` whose calls send from memory of their own, every access is to a
block of the task that makes it, if and only if no `MSG_Send` goes on after its post. -/
theorem owned_iff_unposted (L : Layout) (mem : Mem) (OSQ_MSG : Fin TASK_NUM → ℕ → ℕ)
    {es : List (Event Tid)}
    (h : Along (Machine.step L) (SourceOk L) (Machine.start L mem OSQ_MSG) es) :
    Along (Machine.step L) (Owned L) (Machine.start L mem OSQ_MSG) es ↔
      Along (Machine.step L) Unposted (Machine.start L mem OSQ_MSG) es := by
  refine along_owned_iff (ok_start L mem OSQ_MSG) ?_ h
  rintro x r d ⟨⟩

/-! ### A run in which the block has another owner -/

instance (s : Machine Tid) : (e : Event Tid) → Decidable (Unposted s e)
  | .act x =>
      match h : s.pending x with
      | none => isTrue fun _ _ h' => by simp [h] at h'
      | some (_, seen) =>
          if hp : seen.posted = none then isTrue fun _ _ h' => by
            obtain ⟨_, rfl⟩ := Prod.mk.inj (Option.some.inj (h.symm.trans h'))
            exact hp
          else isFalse fun hall => hp (hall _ _ h)
  | .call _ _ => isTrue trivial
  | .ret _ => isTrue trivial
  | .write _ _ _ => isTrue trivial

instance (L : Layout) (s : Machine Tid) : (e : Event Tid) → Decidable (SourceOk L s e)
  | .call _ (.send _) => inferInstanceAs (Decidable (∀ i < _, _ ∨ _))
  | .call _ (.receive _) => isTrue trivial
  | .call _ (.free _) => isTrue trivial
  | .call _ (.get _) => isTrue trivial
  | .call _ (.put _) => isTrue trivial
  | .act _ => isTrue trivial
  | .ret _ => isTrue trivial
  | .write _ _ _ => isTrue trivial

/-- Task 1 sends two bytes and is preempted after the post; task 0 receives the message, frees
it and takes the block for something else. -/
def untilPost : List (Event MainTask) :=
  .call .one (.send ⟨0, 1, 0, 0, 4096, 2⟩) :: List.replicate 10 (.act .one) ++
    [.call .start (.receive 0), .act .start, .act .start, .ret .start,
      .call .start (.free 536870912), .act .start, .act .start, .ret .start,
      .call .start (.get 8), .act .start, .ret .start, .write .start 536870912 255]

theorem owned_until_post :
    Along (Machine.step sideBySide) (SourceOk sideBySide) booted untilPost ∧
      (Along (Machine.step sideBySide) (Owned sideBySide) booted untilPost ↔
        Along (Machine.step sideBySide) Unposted booted untilPost) :=
  have h : Along (Machine.step sideBySide) (SourceOk sideBySide) booted untilPost := by
    decide +kernel
  ⟨h, owned_iff_unposted sideBySide _ _ h⟩

/-- Now task 1 goes on, and reads the block. -/
theorem read_after_post :
    (exec (Machine.step sideBySide) booted (untilPost ++ [.act .one])).isSome ∧
      Along (Machine.step sideBySide) (SourceOk sideBySide) booted (untilPost ++ [.act .one]) ∧
      ¬ Along (Machine.step sideBySide) (Owned sideBySide) booted (untilPost ++ [.act .one]) := by
  have hsrc : Along (Machine.step sideBySide) (SourceOk sideBySide) booted
      (untilPost ++ [.act .one]) := by
    decide +kernel
  refine ⟨by decide +kernel, hsrc, fun howned => ?_⟩
  have hstart : Sourced sideBySide booted := by
    rintro x r d ⟨⟩
  have hun := (along_owned_iff (ok_start sideBySide _ _) hstart hsrc).mp howned
  exact absurd hun (by decide +kernel)

end Stm32Templet.Sys
