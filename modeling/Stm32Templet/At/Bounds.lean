import Stm32Templet.At.Port

/-! # The command line and its buffer

Every store of `at_recvTask` through `pCmdLine`, for any stream of bytes cut into calls in any
way.  The limit of the buffer is tested only for a byte that is not the end of the line, so
the one line that leaves the buffer is the one whose newline is stored in the last slot: its
`'\0'` goes behind it (`newline_in_last_slot`).  All other lines are stored and terminated
inside the buffer (`in_bounds_iff_short`). -/

namespace Stm32Templet.At

open Runs

/-! ### The system -/

inductive Event where
  /-- A call of `at_recvTask`; its local variable holds `temp`. -/
  | call (temp : UInt8)
  /-- An iteration of its loop. -/
  | byte (b : UInt8)

def Port.step (s : Port) : Event → Option Port
  | .call temp => some { s with temp := temp }
  | .byte b => some (recvByte b s)

theorem exec_recvTask (temp : UInt8) (recvBuf : List UInt8) (s : Port) :
    exec Port.step s (.call temp :: recvBuf.map .byte) = some (recvTask temp recvBuf s) := by
  have hloop : ∀ (recvBuf : List UInt8) (s : Port), exec Port.step s (recvBuf.map .byte) =
      some (recvBuf.foldl (fun s b => recvByte b s) s) := by
    intro recvBuf
    induction recvBuf with
    | nil => exact fun s => rfl
    | cons b recvBuf ih => exact fun s => ih (recvByte b s)
  exact hloop recvBuf _

/-- Before the first call. -/
structure Port.Start (s : Port) : Prop where
  at_state : s.at_state = .at_statIdle
  specialAtState : s.specialAtState = true
  stores : s.stores = []
  handed : s.handed = []

/-- Every store hit the buffer, and every line handed on ends inside it. -/
def Port.InBounds (s : Port) : Prop :=
  (∀ i ∈ s.stores, i < at_cmdLenMax) ∧ ∀ line ∈ s.handed, ∃ n < at_cmdLenMax, line n = 0

/-- The byte is not a newline recorded in the last slot of the buffer. -/
def Short (s : Port) : Event → Prop
  | .call _ => True
  | .byte b => ¬ (s.at_state = .at_statRecving ∧ s.pCmdLine = at_cmdLenMax - 1 ∧ b = chr '\n')

instance (s : Port) : ∀ e, Decidable (Short s e)
  | .call _ => isTrue trivial
  | .byte _ => inferInstanceAs (Decidable (¬ _))

/-! ### One byte -/

variable {s s' : Port} {b : UInt8}

theorem echo_eq (b : UInt8) (s : Port) :
    ∃ out temp, echo b s = { s with env.out := out, temp := temp } ∧
      (s.at_state ≠ .at_statIpTraning → temp = b) := by
  unfold echo Port.setData
  by_cases h : s.at_state = .at_statIpTraning
  · exact ⟨s.env.out, s.temp, if_neg (not_not.mpr h), fun hn => absurd h hn⟩
  · simp only [ne_eq, h, not_false_eq_true, if_true]
    split
    · exact ⟨_, _, rfl, fun _ => rfl⟩
    · exact ⟨s.env.out, b, rfl, fun _ => rfl⟩

theorem recvByte_idle (h : s.at_state = .at_statIdle) :
    (recvByte b s).stores = s.stores ∧ (recvByte b s).handed = s.handed ∧
      (recvByte b s).specialAtState = s.specialAtState ∧
      ((recvByte b s).at_state = .at_statIdle ∨
        (recvByte b s).at_state = .at_statRecving ∧ (recvByte b s).pCmdLine = 0) := by
  obtain ⟨out, temp, he, _⟩ := echo_eq b s
  simp only [recvByte, he, h, searchHead, Port.printf]
  split
  · exact ⟨rfl, rfl, rfl, Or.inr ⟨rfl, rfl⟩⟩
  · split
    · exact ⟨rfl, rfl, rfl, Or.inl rfl⟩
    · exact ⟨rfl, rfl, rfl, Or.inl rfl⟩

theorem recvByte_body (h : s.at_state = .at_statRecving) (hb : b ≠ chr '\n') :
    (recvByte b s).stores = s.stores ++ [s.pCmdLine] ∧ (recvByte b s).handed = s.handed ∧
      (recvByte b s).specialAtState = s.specialAtState ∧
      (recvByte b s).at_state =
        (if s.pCmdLine ≥ at_cmdLenMax - 1 then .at_statIdle else .at_statRecving) ∧
      (recvByte b s).pCmdLine = s.pCmdLine + 1 := by
  obtain ⟨out, temp, he, ht⟩ := echo_eq b s
  obtain rfl := ht (by rw [h]; decide)
  simp only [recvByte, he, h, recordByte, Port.store, hb, if_false]
  split
  · exact ⟨rfl, rfl, rfl, rfl, rfl⟩
  · exact ⟨rfl, rfl, rfl, rfl, rfl⟩

/-- A newline is stored, a `'\0'` behind it, and the line is processed. -/
theorem recvByte_newline (h : s.at_state = .at_statRecving) (hspecial : s.specialAtState = true) :
    (recvByte (chr '\n') s).stores = s.stores ++ [s.pCmdLine, s.pCmdLine + 1] ∧
      (recvByte (chr '\n') s).handed = s.handed ++
        [Function.update (Function.update s.at_cmdLine s.pCmdLine (chr '\n')) (s.pCmdLine + 1) 0] ∧
      (recvByte (chr '\n') s).specialAtState = true ∧
      (recvByte (chr '\n') s).at_state = .at_statIdle := by
  obtain ⟨out, temp, he, ht⟩ := echo_eq (chr '\n') s
  obtain rfl := ht (by rw [h]; decide)
  simp only [recvByte, he, h, recordByte, Port.store, Port.setData, Port.printf, procTask, if_true]
  split
  · simp [hspecial]
  · simp [hspecial]

/-- The machine is searching, or recording inside the buffer. -/
structure Port.Inv (s : Port) : Prop where
  inBounds : s.InBounds
  specialAtState : s.specialAtState = true
  at_state : s.at_state = .at_statIdle ∨
    s.at_state = .at_statRecving ∧ s.pCmdLine < at_cmdLenMax

theorem Port.Inv.idle (h : s.Inv) (hs : s.at_state = .at_statIdle) : (recvByte b s).Inv := by
  obtain ⟨h₁, h₂, h₃, h₄⟩ := recvByte_idle (b := b) hs
  refine ⟨?_, h₃.trans h.specialAtState, h₄.imp_right fun hr => ⟨hr.1, by rw [hr.2]; decide⟩⟩
  unfold Port.InBounds
  rw [h₁, h₂]
  exact h.inBounds

theorem Port.Inv.body (h : s.Inv) (hs : s.at_state = .at_statRecving)
    (hlt : s.pCmdLine < at_cmdLenMax) (hb : b ≠ chr '\n') : (recvByte b s).Inv := by
  obtain ⟨h₁, h₂, h₃, h₄, h₅⟩ := recvByte_body hs hb
  refine ⟨?_, h₃.trans h.specialAtState, ?_⟩
  · unfold Port.InBounds
    rw [h₁, h₂]
    refine ⟨fun i hi => ?_, h.inBounds.2⟩
    rcases List.mem_append.mp hi with hi | hi
    · exact h.inBounds.1 i hi
    · rwa [List.mem_singleton.mp hi]
  · rw [h₄, h₅]
    unfold at_cmdLenMax at hlt ⊢
    split
    · exact Or.inl rfl
    · exact Or.inr ⟨rfl, by omega⟩

theorem Port.Inv.newline (h : s.Inv) (hs : s.at_state = .at_statRecving)
    (hlt : s.pCmdLine + 1 < at_cmdLenMax) : (recvByte (chr '\n') s).Inv := by
  obtain ⟨h₁, h₂, h₃, h₄⟩ := recvByte_newline hs h.specialAtState
  refine ⟨?_, h₃, Or.inl h₄⟩
  unfold Port.InBounds
  rw [h₁, h₂]
  refine ⟨fun i hi => ?_, fun line hl => ?_⟩
  · rcases List.mem_append.mp hi with hi | hi
    · exact h.inBounds.1 i hi
    · simp only [List.mem_cons, List.not_mem_nil, or_false] at hi
      omega
  · rcases List.mem_append.mp hl with hl | hl
    · exact h.inBounds.2 line hl
    · rw [List.mem_singleton.mp hl]
      exact ⟨s.pCmdLine + 1, hlt, Function.update_self _ _ _⟩

theorem Port.Inv.step {e : Event} (h : s.Inv) (hc : Short s e) (hs : s.step e = some s') :
    s'.Inv := by
  cases e with
  | call temp =>
      cases hs
      exact ⟨h.inBounds, h.specialAtState, h.at_state⟩
  | byte b =>
      cases hs
      rcases h.at_state with hi | ⟨hr, hlt⟩
      · exact h.idle hi
      · by_cases hb : b = chr '\n'
        · subst hb
          refine h.newline hr ?_
          have hne : s.pCmdLine ≠ at_cmdLenMax - 1 := fun he => hc ⟨hr, he, rfl⟩
          unfold at_cmdLenMax at hne hlt ⊢
          omega
        · exact h.body hr hlt hb

/-- The line whose newline comes in the last slot is terminated behind the buffer. -/
theorem newline_in_last_slot (h : s.Inv) (hc : ¬ Short s (.byte b)) :
    ¬ (recvByte b s).InBounds := by
  obtain ⟨hr, hlast, rfl⟩ := not_not.mp hc
  obtain ⟨h₁, _⟩ := recvByte_newline hr h.specialAtState
  intro hin
  have := hin.1 (s.pCmdLine + 1) (by rw [h₁]; simp)
  unfold at_cmdLenMax at hlast this
  omega

/-! ### Streams -/

theorem Port.Start.inv (h : s.Start) : s.Inv := by
  refine ⟨⟨?_, ?_⟩, h.specialAtState, Or.inl h.at_state⟩
  · rw [h.stores]
    exact fun i hi => absurd hi List.not_mem_nil
  · rw [h.handed]
    exact fun line hl => absurd hl List.not_mem_nil

/-- For every stream and every way of cutting it into calls, the stores stay inside the
buffer, and the lines handed on end inside it, exactly if no newline is recorded in the last
slot. -/
theorem in_bounds_iff_short (h : s.Start) (es : List Event) :
    (∀ es₁ s', es₁ <+: es → exec Port.step s es₁ = some s' → s'.InBounds) ↔
      Along Port.step Short s es := by
  refine along_iff (A := fun _ _ => True) (fun _ _ _ hI _ hc hs => hI.step hc hs)
    (fun _ hI => hI.inBounds) (fun t e hI _ hin => ?_) h.inv (along_true s es)
  by_contra hn
  cases e with
  | call temp => exact hn trivial
  | byte b => exact newline_in_last_slot hI hn (hin _ rfl)

/-! ### A line of the critical length -/

/-- The variables as the program initialises them. -/
def boot : Port :=
  { env := ⟨true, 0, [], fun _ => 0, 0⟩
    specialAtState := true
    at_state := .at_statIdle
    at_cmdLine := fun _ => 0
    atHead := (0, 0)
    pCmdLine := 0
    temp := 0
    stores := []
    handed := [] }

theorem boot_start : boot.Start := ⟨rfl, rfl, rfl, rfl⟩

/-- The line `ATE0` in two calls. -/
theorem in_bounds_two_calls : ∃ s', exec Port.step boot [.call 0, .byte 65, .byte 84, .byte 69,
      .call 0, .byte 48, .byte 13, .byte 10] = some s' ∧ s'.InBounds :=
  ⟨_, rfl, (in_bounds_iff_short boot_start [.call 0, .byte 65, .byte 84, .byte 69, .call 0,
    .byte 48, .byte 13, .byte 10]).mpr (by decide) _ _ List.prefix_rfl rfl⟩

/-- `AT`, then 127 bytes, then the newline. -/
def criticalLine : List UInt8 := [65, 84] ++ List.replicate 127 32 ++ [10]

/-- The newline of this line goes to slot 127 and the `'\0'` to slot 128. -/
theorem critical_line_out_of_bounds :
    ¬ ∀ (s s' : Port) (es : List Event), s.Start → exec Port.step s es = some s' →
      s'.InBounds := by
  intro h
  have := h boot _ (.call 0 :: criticalLine.map .byte) boot_start (exec_recvTask _ _ _)
  have hmem : 128 ∈ (recvTask 0 criticalLine boot).stores := by decide +kernel
  exact absurd (this.1 128 hmem) (by decide)

end Stm32Templet.At
