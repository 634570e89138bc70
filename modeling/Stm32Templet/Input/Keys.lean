import Stm32Templet.Input.Handle
import Mathlib.Data.List.FinRange

/-! # The four keys

`Input_ModuleProcess0` of `Module/src/input_module.c`: at each tick every key is handed its bit
of the data word, and a press of the key with code `0` switches the blinking of the LED.  The
keys do not touch each other (`inputs_ticks`), so the LED tells the parity of the presses that
the samples of the first key report (`s_state_ticks`). -/

namespace Stm32Templet.Input

open Debounce

/-- `Inputs`, and `s_state` of `Module/src/led_module.c`. -/
structure InputModule where
  Inputs : Fin 4 → InputSut
  s_state : UInt8

/-- `Tool_GetBitFor`. -/
def toolGetBitFor (data : UInt32) (index : UInt8) : UInt32 := (data >>> index.toUInt32) &&& 1

/-- `LED_ModuleOnOff`. -/
def ledModuleOnOff (s_state : UInt8) : UInt8 := if s_state ≠ 0 then 0 else 1

/-- The sample of key `i` in the data word. -/
def sample (i : Fin 4) (input : UInt32) : ℤ := (toolGetBitFor input (UInt8.ofNat i)).toNat

/-- The loop of `Input_ModuleProcess0` at key `i`. -/
def inputModuleKey (input : UInt32) (s : InputModule) (i : Fin 4) : InputModule :=
  let r := inputHandle (s.Inputs i) (sample i input)
  -- the `s8` is stored in a `u8`
  let u := UInt8.ofInt r.1
  { Inputs := Function.update s.Inputs i r.2
    s_state :=
      if (u = 0 ∨ u = 1) ∧ (s.Inputs i).keyCode ≠ 255 then
        if (s.Inputs i).keyCode = 0 ∧ u = 1 then ledModuleOnOff s.s_state else s.s_state
      else s.s_state }

/-- `Input_ModuleProcess0`, `input` being what `input_Data` returns. -/
def inputModuleProcess0 (s : InputModule) (input : UInt32) : InputModule :=
  (List.finRange 4).foldl (inputModuleKey input) s

/-- After `Input_ModuleInit`. -/
def InputModule.start : InputModule := ⟨inputModuleInit, 0⟩

/-- The calls of one run after the other. -/
def InputModule.ticks (inputs : List UInt32) : InputModule :=
  inputs.foldl inputModuleProcess0 .start

/-! ### One tick -/

theorem inputHandle_keyCode (k : InputSut) (d : ℤ) :
    (inputHandle k d).2.keyCode = k.keyCode := by
  unfold inputHandle
  split <;> split <;> (try split) <;> rfl

/-- The conversion to a `u8` keeps the presses apart. -/
theorem ofInt_eq_one {r : ℤ} (h : r ∈ ([1, 0, 2, -1] : List ℤ)) : UInt8.ofInt r = 1 ↔ r = 1 := by
  simp only [List.mem_cons, List.not_mem_nil, or_false] at h
  rcases h with rfl | rfl | rfl | rfl <;> decide

/-- A press of the key with code `0` is what counts. -/
theorem inputModuleKey_state (input : UInt32) (s : InputModule) (i : Fin 4) :
    (inputModuleKey input s i).s_state =
      if (s.Inputs i).keyCode = 0 ∧ (inputHandle (s.Inputs i) (sample i input)).1 = 1 then
        ledModuleOnOff s.s_state
      else s.s_state := by
  have hone := ofInt_eq_one (inputHandle_mem (s.Inputs i) (sample i input))
  simp only [inputModuleKey, hone]
  by_cases hpress : (s.Inputs i).keyCode = 0 ∧ (inputHandle (s.Inputs i) (sample i input)).1 = 1
  · have hcode : (s.Inputs i).keyCode ≠ 255 := by
      rw [hpress.1]
      decide
    rw [if_pos hpress, if_pos ⟨Or.inr hpress.2, hcode⟩]
  · rw [if_neg hpress, ite_self]

variable (input : UInt32) (s : InputModule)

theorem inputs_keys {l : List (Fin 4)} (hl : l.Nodup) (i : Fin 4) :
    (l.foldl (inputModuleKey input) s).Inputs i =
      if i ∈ l then (inputHandle (s.Inputs i) (sample i input)).2 else s.Inputs i := by
  induction l generalizing s with
  | nil => rfl
  | cons j l ih =>
      obtain ⟨hj, hl⟩ := List.nodup_cons.mp hl
      rw [List.foldl_cons, ih _ hl]
      by_cases hi : i = j
      · subst hi
        rw [if_neg hj, if_pos List.mem_cons_self]
        exact Function.update_self _ _ _
      · have hsame : (inputModuleKey input s j).Inputs i = s.Inputs i :=
          Function.update_of_ne hi _ _
        rw [hsame]
        simp only [List.mem_cons, hi, false_or]

theorem inputs_process (i : Fin 4) :
    (inputModuleProcess0 s input).Inputs i =
      (inputHandle (s.Inputs i) (sample i input)).2 := by
  rw [inputModuleProcess0, inputs_keys input s (List.nodup_finRange 4),
    if_pos (List.mem_finRange i)]

/-- Keys with other codes do not switch the LED. -/
theorem s_state_keys {l : List (Fin 4)} (hl : ∀ i ∈ l, (s.Inputs i).keyCode ≠ 0) :
    (l.foldl (inputModuleKey input) s).s_state = s.s_state := by
  induction l generalizing s with
  | nil => rfl
  | cons j l ih =>
      rw [List.foldl_cons, ih, inputModuleKey_state, if_neg]
      · exact fun h => hl j List.mem_cons_self h.1
      · intro i hi
        by_cases hij : i = j
        · subst hij
          simp only [inputModuleKey, Function.update_self, inputHandle_keyCode]
          exact hl i List.mem_cons_self
        · simp only [inputModuleKey, Function.update_of_ne hij]
          exact hl i (List.mem_cons_of_mem _ hi)

/-- The LED switches when the first key reports a press. -/
theorem s_state_process (hcode : ∀ i, (s.Inputs i).keyCode = KEY_CODE i) :
    (inputModuleProcess0 s input).s_state =
      if (inputHandle (s.Inputs 0) (sample 0 input)).1 = 1 then ledModuleOnOff s.s_state
      else s.s_state := by
  have hkeys : List.finRange 4 = 0 :: [1, 2, 3] := rfl
  have hzero : (s.Inputs 0).keyCode = 0 := hcode 0
  rw [inputModuleProcess0, hkeys, List.foldl_cons, s_state_keys, inputModuleKey_state]
  · simp only [hzero, true_and]
  · intro i hi
    have hi0 : i ≠ 0 := by
      rintro rfl
      revert hi
      decide
    simp only [inputModuleKey, Function.update_of_ne hi0, hcode]
    revert hi0
    decide +revert

/-! ### Any number of ticks -/

theorem ticks_concat (inputs : List UInt32) (input : UInt32) :
    InputModule.ticks (inputs ++ [input]) = inputModuleProcess0 (.ticks inputs) input := by
  simp [InputModule.ticks]

theorem inputs_ticks (inputs : List UInt32) (i : Fin 4) :
    (InputModule.ticks inputs).Inputs i =
      (handles (inputModuleInit i) (inputs.map (sample i))).2 := by
  induction inputs using List.reverseRecOn with
  | nil => rfl
  | append_singleton inputs input ih =>
      rw [ticks_concat, inputs_process, ih, List.map_append, List.map_singleton, handles_concat]

theorem handles_keyCode (k : InputSut) (ds : List ℤ) : (handles k ds).2.keyCode = k.keyCode := by
  induction ds using List.reverseRecOn with
  | nil => rfl
  | append_singleton ds d ih => rw [handles_concat, inputHandle_keyCode, ih]

/-- The number of presses that a key reports. -/
def presses (k : InputSut) (ds : List ℤ) : ℕ := (reports k ds).count (some .pressed)

theorem presses_concat (k : InputSut) (ds : List ℤ) (d : ℤ) :
    presses k (ds ++ [d]) =
      presses k ds + if (inputHandle (handles k ds).2 d).1 = 1 then 1 else 0 := by
  have hvalue := inputHandle_mem (handles k ds).2 d
  unfold presses reports
  rw [handles_concat, List.map_append, List.map_singleton, List.count_append,
    List.count_singleton]
  congr 1
  generalize (inputHandle (handles k ds).2 d).1 = r at hvalue ⊢
  simp only [List.mem_cons, List.not_mem_nil, or_false] at hvalue
  rcases hvalue with rfl | rfl | rfl | rfl <;> rfl

/-- `s_state` is the parity of the presses that the samples of the first key report. -/
theorem s_state_ticks (inputs : List UInt32) :
    (InputModule.ticks inputs).s_state =
      if presses (inputModuleInit 0) (inputs.map (sample 0)) % 2 = 0 then 0 else 1 := by
  induction inputs using List.reverseRecOn with
  | nil => rfl
  | append_singleton inputs input ih =>
      have hcode : ∀ i, ((InputModule.ticks inputs).Inputs i).keyCode = KEY_CODE i := by
        intro i
        rw [inputs_ticks, handles_keyCode]
        rfl
      rw [ticks_concat, s_state_process input _ hcode, inputs_ticks, ih, List.map_append,
        List.map_singleton, presses_concat]
      by_cases hpress : (inputHandle (handles (inputModuleInit 0)
          (inputs.map (sample 0))).2 (sample 0 input)).1 = 1
      · rw [if_pos hpress, if_pos hpress]
        rcases Nat.mod_two_eq_zero_or_one
          (presses (inputModuleInit 0) (inputs.map (sample 0))) with heven | hodd
        · rw [if_pos heven, if_neg (by omega)]
          rfl
        · rw [if_neg (by omega), if_pos (by omega)]
          rfl
      · rw [if_neg hpress, if_neg hpress, Nat.add_zero]

end Stm32Templet.Input
