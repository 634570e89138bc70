import Stm32Templet.Lib.Debounce
import Stm32Templet.Tasks.Module
import Mathlib.Data.Int.Notation
import Mathlib.Data.List.Induction

/-! # Debouncing the keys

`Input_Handle` of `Module/src/input_module.c`, called with one sample of a key at each tick.
Its six states share the counter `inputTime`, which counts the samples of the run at the end of
the history, the first one not included: the active ones in `INPUT_VIBRATE` and `INPUT_DOWN`,
the inactive ones in `INPUT_VIBRATE2` and `INPUT_VIBRATE3` (`Counts`).  With that the function
reports what the rule of `Lib/Debounce.lean` says (`debounces`). -/

namespace Stm32Templet.Input

open Debounce

/-! ### Data -/

/-- `PLUSE_MODE`: the level at which a key is active. -/
inductive PluseMode where
  | OPEN
  | CLOSE
  deriving DecidableEq

/-- `Input_TypeDef`. -/
inductive InputTypeDef where
  | INPUT_IDLE
  | INPUT_DOWN
  | INPUT_LONG_DOWN
  | INPUT_VIBRATE
  | INPUT_VIBRATE2
  | INPUT_VIBRATE3
  deriving DecidableEq

/-- `Input_sut`. -/
structure InputSut where
  inputOffTime : UInt16
  inputLongTime : UInt16
  inputTime : UInt16
  mode : PluseMode
  state : InputTypeDef
  keyCode : UInt8

def HEART_INTERVAL : UInt16 := UInt16.ofNat (1000 / Tasks.OS_TICKS_PER_SEC)

/-- Whether the sample `d` matches `mode`. -/
def InputSut.active (k : InputSut) (d : ℤ) : Bool :=
  (d ≠ 0 ∧ k.mode = .CLOSE) ∨ (d = 0 ∧ k.mode = .OPEN)

/-- `Input_Handle`: the value returned and the key after it. -/
def inputHandle (k : InputSut) (d : ℤ) : ℤ × InputSut :=
  if k.active d then
    match k.state with
    | .INPUT_IDLE => (-1, { k with state := .INPUT_VIBRATE, inputTime := 0 })
    | .INPUT_VIBRATE =>
        if k.inputTime + HEART_INTERVAL ≥ k.inputOffTime then
          (1, { k with inputTime := k.inputTime + HEART_INTERVAL, state := .INPUT_DOWN })
        else (-1, { k with inputTime := k.inputTime + HEART_INTERVAL })
    | .INPUT_DOWN =>
        if k.inputTime + HEART_INTERVAL ≥ k.inputLongTime then
          (2, { k with inputTime := k.inputTime + HEART_INTERVAL, state := .INPUT_LONG_DOWN })
        else (-1, { k with inputTime := k.inputTime + HEART_INTERVAL })
    | .INPUT_VIBRATE2 => (-1, { k with inputTime := 0, state := .INPUT_DOWN })
    | .INPUT_VIBRATE3 => (-1, { k with inputTime := 0, state := .INPUT_LONG_DOWN })
    | .INPUT_LONG_DOWN => (-1, k)
  else
    match k.state with
    | .INPUT_IDLE => (-1, k)
    | .INPUT_VIBRATE => (-1, { k with state := .INPUT_IDLE, inputTime := 0 })
    | .INPUT_DOWN => (-1, { k with state := .INPUT_VIBRATE2, inputTime := 0 })
    | .INPUT_VIBRATE2 =>
        if k.inputTime + HEART_INTERVAL ≥ k.inputOffTime then
          (0, { k with state := .INPUT_IDLE, inputTime := 0 })
        else (-1, { k with inputTime := k.inputTime + HEART_INTERVAL })
    | .INPUT_LONG_DOWN => (-1, { k with state := .INPUT_VIBRATE3, inputTime := 0 })
    | .INPUT_VIBRATE3 =>
        if k.inputTime + HEART_INTERVAL ≥ k.inputOffTime then
          (0, { k with state := .INPUT_IDLE, inputTime := 0 })
        else (-1, { k with inputTime := k.inputTime + HEART_INTERVAL })

/-- The values returned for a sequence of samples and the key after them. -/
def handles (k : InputSut) (ds : List ℤ) : List ℤ × InputSut :=
  ds.foldl (fun s d => (s.1 ++ [(inputHandle s.2 d).1], (inputHandle s.2 d).2)) ([], k)

/-- Whether the call adds to `inputTime`. -/
def InputSut.counts (k : InputSut) (d : ℤ) : Bool :=
  match k.state with
  | .INPUT_VIBRATE => k.active d
  | .INPUT_DOWN => k.active d
  | .INPUT_VIBRATE2 => !k.active d
  | .INPUT_VIBRATE3 => !k.active d
  | _ => false

/-- Apart from this the counter only goes back to `0`. -/
theorem inputHandle_time (k : InputSut) (d : ℤ) :
    (inputHandle k d).2.inputTime = 0 ∨
      (inputHandle k d).2.inputTime =
        if k.counts d then k.inputTime + HEART_INTERVAL else k.inputTime := by
  unfold inputHandle
  cases ha : k.active d with
  | true =>
      rw [if_pos rfl]
      cases hstate : k.state <;> simp [InputSut.counts, hstate, ha] <;> split <;> simp
  | false =>
      rw [if_neg Bool.false_ne_true]
      cases hstate : k.state <;> simp [InputSut.counts, hstate, ha] <;> split <;> simp

theorem inputHandle_mem (k : InputSut) (d : ℤ) :
    (inputHandle k d).1 ∈ ([1, 0, 2, -1] : List ℤ) := by
  unfold inputHandle
  split <;> split <;> (try split) <;> simp

/-- What a value of `Input_Handle` reports. -/
def report : ℤ → Option Edge
  | 0 => some .released
  | 1 => some .pressed
  | 2 => some .held
  | _ => none

/-- The value that reports an edge. -/
def value : Option Edge → ℤ
  | some .released => 0
  | some .pressed => 1
  | some .held => 2
  | none => -1

@[simp] theorem report_value (e : Option Edge) : report (value e) = e := by
  cases e with
  | none => rfl
  | some e => cases e <;> rfl

/-! ### The counter and the runs -/

/-- What `inputTime`, of value `t`, counts in each state, `on` and `off` being the lengths of
the runs of active and of inactive samples at the end of the history. -/
def InputTypeDef.Counts (o l t on off : ℕ) (down held : Bool) : InputTypeDef → Prop
  | INPUT_IDLE => down = false ∧ on = 0
  | INPUT_VIBRATE => down = false ∧ on = t + 1 ∧ t < o
  | INPUT_DOWN => down = true ∧ held = false ∧ on = t + 1 ∧ off = 0 ∧ t < l
  | INPUT_LONG_DOWN => down = true ∧ held = true ∧ off = 0
  | INPUT_VIBRATE2 => down = true ∧ held = false ∧ on = 0 ∧ off = t + 1 ∧ t < o
  | INPUT_VIBRATE3 => down = true ∧ held = true ∧ on = 0 ∧ off = t + 1 ∧ t < o

/-- The key agrees with its history: `es` are the reports, `samples` whether the samples were
active, and `o` and `l` the thresholds. -/
structure InputSut.Agrees (o l : ℕ) (k : InputSut) (es : List (Option Edge))
    (samples : List Bool) : Prop where
  off : k.inputOffTime.toNat = o
  long : k.inputLongTime.toNat = l
  counts : k.state.Counts o l k.inputTime.toNat (streak id samples) (streak not samples)
    (isDown es) (wasHeld es)

theorem toNat_heart {t limit : UInt16} (h : t.toNat < limit.toNat) :
    (t + HEART_INTERVAL).toNat = t.toNat + 1 := by
  have hlimit := limit.toNat_lt
  have hone : HEART_INTERVAL.toNat = 1 := rfl
  rw [UInt16.toNat_add, hone, Nat.mod_eq_of_lt (by omega)]

theorem heart_ge {t limit : UInt16} (h : t.toNat < limit.toNat) :
    t + HEART_INTERVAL ≥ limit ↔ t.toNat + 1 = limit.toNat := by
  rw [ge_iff_le, UInt16.le_iff_toNat_le, toNat_heart h]
  omega

variable {o l : ℕ} {k : InputSut} {es : List (Option Edge)} {samples : List Bool}

theorem InputSut.Agrees.active (ho : 1 ≤ o) (hl : o < l) (h : k.Agrees o l es samples) {d : ℤ}
    (ha : k.active d = true) :
    (inputHandle k d).1 = value (edge o l es (samples ++ [true])) ∧
      (inputHandle k d).2.Agrees o l (es ++ [edge o l es (samples ++ [true])])
        (samples ++ [true]) := by
  obtain ⟨hoff, hlong, hcounts⟩ := h
  subst hoff hlong
  rw [inputHandle, if_pos ha, edge_active]
  cases hstate : k.state with
  | INPUT_IDLE =>
      rw [hstate] at hcounts
      obtain ⟨hdown, hon⟩ := hcounts
      have hshort : ¬ 0 = k.inputOffTime.toNat := by omega
      simp only [hdown, hon, hshort, Bool.false_eq_true, false_and, and_false, if_false]
      refine ⟨rfl, rfl, rfl, ?_⟩
      simp [InputTypeDef.Counts, streak_concat, hdown, hon, downAfter]
      omega
  | INPUT_VIBRATE =>
      rw [hstate] at hcounts
      obtain ⟨hdown, hon, hlt⟩ := hcounts
      simp only [heart_ge hlt, hdown, hon, true_and, Bool.false_eq_true, false_and, if_false]
      by_cases hlast : k.inputTime.toNat + 1 = k.inputOffTime.toNat
      · rw [if_pos hlast, if_pos hlast]
        refine ⟨rfl, rfl, rfl, ?_⟩
        simp [InputTypeDef.Counts, streak_concat, downAfter, heldAfter, toNat_heart hlt, hon]
        omega
      · rw [if_neg hlast, if_neg hlast]
        refine ⟨rfl, rfl, rfl, ?_⟩
        simp [InputTypeDef.Counts, streak_concat, downAfter, toNat_heart hlt, hon, hdown]
        omega
  | INPUT_DOWN =>
      rw [hstate] at hcounts
      obtain ⟨hdown, hheld, hon, hoff, hlt⟩ := hcounts
      simp only [heart_ge hlt, hdown, hheld, hon, true_and, Bool.true_eq_false, false_and,
        if_false]
      by_cases hlast : k.inputTime.toNat + 1 = k.inputLongTime.toNat
      · rw [if_pos hlast, if_pos hlast]
        refine ⟨rfl, rfl, rfl, ?_⟩
        simp [InputTypeDef.Counts, streak_concat, downAfter, heldAfter, hdown]
      · rw [if_neg hlast, if_neg hlast]
        refine ⟨rfl, rfl, rfl, ?_⟩
        simp [InputTypeDef.Counts, streak_concat, downAfter, heldAfter, toNat_heart hlt, hon,
          hdown, hheld]
        omega
  | INPUT_LONG_DOWN =>
      rw [hstate] at hcounts
      obtain ⟨hdown, hheld, hoff⟩ := hcounts
      simp only [hdown, hheld, Bool.true_eq_false, false_and, and_false, if_false]
      refine ⟨rfl, rfl, rfl, ?_⟩
      simp [InputTypeDef.Counts, streak_concat, downAfter, heldAfter, hdown, hheld, hstate]
  | INPUT_VIBRATE2 =>
      rw [hstate] at hcounts
      obtain ⟨hdown, hheld, hon, hoff, hlt⟩ := hcounts
      have hshort : ¬ 0 = k.inputLongTime.toNat := by omega
      simp only [hdown, hon, hshort, Bool.true_eq_false, false_and, and_false, if_false]
      refine ⟨rfl, rfl, rfl, ?_⟩
      simp [InputTypeDef.Counts, streak_concat, downAfter, heldAfter, hdown, hheld, hon]
      omega
  | INPUT_VIBRATE3 =>
      rw [hstate] at hcounts
      obtain ⟨hdown, hheld, hon, hoff, hlt⟩ := hcounts
      simp only [hdown, hheld, Bool.true_eq_false, false_and, and_false, if_false]
      refine ⟨rfl, rfl, rfl, ?_⟩
      simp [InputTypeDef.Counts, streak_concat, downAfter, heldAfter, hdown, hheld]

theorem InputSut.Agrees.inactive (ho : 1 ≤ o) (h : k.Agrees o l es samples) {d : ℤ}
    (ha : k.active d = false) :
    (inputHandle k d).1 = value (edge o l es (samples ++ [false])) ∧
      (inputHandle k d).2.Agrees o l (es ++ [edge o l es (samples ++ [false])])
        (samples ++ [false]) := by
  obtain ⟨hoff, hlong, hcounts⟩ := h
  subst hoff hlong
  have ha' : ¬ k.active d = true := by simp [ha]
  rw [inputHandle, if_neg ha', edge_inactive]
  cases hstate : k.state with
  | INPUT_IDLE =>
      rw [hstate] at hcounts
      obtain ⟨hdown, hon⟩ := hcounts
      simp only [hdown, Bool.false_eq_true, false_and, if_false]
      refine ⟨rfl, rfl, rfl, ?_⟩
      simp [InputTypeDef.Counts, streak_concat, downAfter, hdown, hstate]
  | INPUT_VIBRATE =>
      rw [hstate] at hcounts
      obtain ⟨hdown, hon, hlt⟩ := hcounts
      simp only [hdown, Bool.false_eq_true, false_and, if_false]
      refine ⟨rfl, rfl, rfl, ?_⟩
      simp [InputTypeDef.Counts, streak_concat, downAfter, hdown]
  | INPUT_DOWN =>
      rw [hstate] at hcounts
      obtain ⟨hdown, hheld, hon, hoff, hlt⟩ := hcounts
      have hshort : ¬ 0 = k.inputOffTime.toNat := by omega
      simp only [hdown, hoff, hshort, and_false, if_false]
      refine ⟨rfl, rfl, rfl, ?_⟩
      simp [InputTypeDef.Counts, streak_concat, downAfter, heldAfter, hdown, hheld, hoff]
      omega
  | INPUT_LONG_DOWN =>
      rw [hstate] at hcounts
      obtain ⟨hdown, hheld, hoff⟩ := hcounts
      have hshort : ¬ 0 = k.inputOffTime.toNat := by omega
      simp only [hdown, hoff, hshort, and_false, if_false]
      refine ⟨rfl, rfl, rfl, ?_⟩
      simp [InputTypeDef.Counts, streak_concat, downAfter, heldAfter, hdown, hheld, hoff]
      omega
  | INPUT_VIBRATE2 | INPUT_VIBRATE3 =>
      rw [hstate] at hcounts
      obtain ⟨hdown, hheld, hon, hoff, hlt⟩ := hcounts
      simp only [heart_ge hlt, hdown, hoff, true_and]
      by_cases hlast : k.inputTime.toNat + 1 = k.inputOffTime.toNat
      · rw [if_pos hlast, if_pos hlast]
        refine ⟨rfl, rfl, rfl, ?_⟩
        simp [InputTypeDef.Counts, streak_concat, downAfter]
      · rw [if_neg hlast, if_neg hlast]
        refine ⟨rfl, rfl, rfl, ?_⟩
        simp [InputTypeDef.Counts, streak_concat, downAfter, heldAfter, toNat_heart hlt, hoff,
          hdown, hheld]
        omega

theorem InputSut.Agrees.step (ho : 1 ≤ o) (hl : o < l) (h : k.Agrees o l es samples) (d : ℤ) :
    (inputHandle k d).1 = value (edge o l es (samples ++ [k.active d])) ∧
      (inputHandle k d).2.Agrees o l (es ++ [edge o l es (samples ++ [k.active d])])
        (samples ++ [k.active d]) := by
  cases ha : k.active d with
  | true => exact h.active ho hl ha
  | false => exact h.inactive ho ha

/-! ### Any sequence of samples -/

theorem inputHandle_mode (k : InputSut) (d : ℤ) : (inputHandle k d).2.mode = k.mode := by
  unfold inputHandle
  split <;> split <;> (try split) <;> rfl

theorem handles_concat (k : InputSut) (ds : List ℤ) (d : ℤ) :
    handles k (ds ++ [d]) =
      ((handles k ds).1 ++ [(inputHandle (handles k ds).2 d).1],
        (inputHandle (handles k ds).2 d).2) := by
  simp [handles]

theorem handles_mode (k : InputSut) (ds : List ℤ) : (handles k ds).2.mode = k.mode := by
  induction ds using List.reverseRecOn with
  | nil => rfl
  | append_singleton ds d ih => rw [handles_concat, inputHandle_mode, ih]

/-- What the calls reported. -/
def reports (k : InputSut) (ds : List ℤ) : List (Option Edge) := (handles k ds).1.map report

/-- A key after `Input_ModuleInit`, its thresholds in order. -/
structure InputSut.Ready (k : InputSut) : Prop where
  idle : k.state = .INPUT_IDLE
  off : 1 ≤ k.inputOffTime.toNat
  long : k.inputOffTime.toNat < k.inputLongTime.toNat

theorem handles_agrees (h : k.Ready) (ds : List ℤ) :
    (handles k ds).2.Agrees k.inputOffTime.toNat k.inputLongTime.toNat (reports k ds)
      (ds.map k.active) ∧ Pressing (reports k ds) := by
  induction ds using List.reverseRecOn with
  | nil =>
      refine ⟨⟨rfl, rfl, ?_⟩, pressing_nil⟩
      simp [handles, reports, h.idle, InputTypeDef.Counts, isDown]
  | append_singleton ds d ih =>
      obtain ⟨hagrees, hpressing⟩ := ih
      have hactive : (handles k ds).2.active d = k.active d := by
        simp only [InputSut.active, handles_mode]
      obtain ⟨hvalue, hagrees'⟩ := hagrees.step h.off h.long d
      rw [hactive] at hvalue hagrees'
      have hreports : reports k (ds ++ [d]) = reports k ds ++
          [edge k.inputOffTime.toNat k.inputLongTime.toNat (reports k ds)
            (ds.map k.active ++ [k.active d])] := by
        simp only [reports, handles_concat, List.map_append, List.map_singleton, hvalue,
          report_value]
      rw [hreports, List.map_append, List.map_singleton, handles_concat]
      exact ⟨hagrees', hpressing.edge _ _ _⟩

/-- The call with the sample `d` after the samples `ds` debounces the key `k`: it reports what
the lengths of the runs that end with `d` say, and `inputTime` does not wrap. -/
structure InputSut.Debounced (k : InputSut) (ds : List ℤ) (d : ℤ) : Prop where
  pressed : (inputHandle (handles k ds).2 d).1 = 1 ↔
    isDown (reports k ds) = false ∧
      streak k.active (ds ++ [d]) = k.inputOffTime.toNat + 1
  released : (inputHandle (handles k ds).2 d).1 = 0 ↔
    isDown (reports k ds) = true ∧
      streak (fun d => !k.active d) (ds ++ [d]) = k.inputOffTime.toNat + 1
  held : (inputHandle (handles k ds).2 d).1 = 2 ↔
    isDown (reports k ds) = true ∧ wasHeld (reports k ds) = false ∧
      streak k.active (ds ++ [d]) = k.inputLongTime.toNat + 1
  other : (inputHandle (handles k ds).2 d).1 ∈ [1, 0, 2, -1]
  presses : ∃ p, Presses p ∧ (reports k (ds ++ [d])).reduceOption <+: p
  time : (handles k ds).2.counts d = true →
    (handles k ds).2.inputTime.toNat + HEART_INTERVAL.toNat < 65536

theorem value_eq_iff {e : Option Edge} (e' : Option Edge) : value e = value e' ↔ e = e' := by
  constructor
  · intro h
    rw [← report_value e, h, report_value]
  · rintro rfl
    rfl

/-- Where the counter is increased, it is below a threshold. -/
theorem InputSut.Agrees.time (h : k.Agrees o l es samples) {d : ℤ} (hd : k.counts d = true) :
    k.inputTime.toNat + HEART_INTERVAL.toNat < 65536 := by
  have hoff := k.inputOffTime.toNat_lt
  have hlong := k.inputLongTime.toNat_lt
  have hone : HEART_INTERVAL.toNat = 1 := rfl
  have hcounts := h.counts
  have hofft := h.off
  have hlongt := h.long
  cases hstate : k.state <;> rw [hstate] at hcounts <;>
    simp only [InputSut.counts, hstate, Bool.false_eq_true] at hd <;>
    simp only [InputTypeDef.Counts] at hcounts <;> omega

/-- `Input_Handle` debounces every key by the lengths of its runs. -/
theorem debounces (h : k.Ready) (ds : List ℤ) (d : ℤ) : k.Debounced ds d := by
  obtain ⟨hagrees, _⟩ := handles_agrees h ds
  obtain ⟨_, hpressing⟩ := handles_agrees h (ds ++ [d])
  have hactive : (handles k ds).2.active d = k.active d := by
    simp only [InputSut.active, handles_mode]
  have hvalue := (hagrees.step h.off h.long d).1
  rw [hactive] at hvalue
  have hsamples : ds.map k.active ++ [k.active d] = (ds ++ [d]).map k.active := by simp
  rw [hsamples] at hvalue
  have hon : streak id ((ds ++ [d]).map k.active) = streak k.active (ds ++ [d]) :=
    streak_map k.active _
  have hoff : streak not ((ds ++ [d]).map k.active) = streak (fun d => !k.active d) (ds ++ [d]) :=
    streak_map k.active _
  refine ⟨?_, ?_, ?_, ?_, hpressing.completed, hagrees.time⟩
  · rw [hvalue, ← hon]
    exact (value_eq_iff (some .pressed)).trans edge_eq_pressed
  · rw [hvalue, ← hoff]
    exact (value_eq_iff (some .released)).trans edge_eq_released
  · rw [hvalue, ← hon]
    exact (value_eq_iff (some .held)).trans edge_eq_held
  · exact inputHandle_mem _ _

/-! ### The keys -/

def INPUT_RANGE : Fin 2 → UInt16 := ![6, 1000]

def KEY_CODE : Fin 4 → UInt8 := ![0, 1, 2, 3]

/-- `Inputs` after `Input_ModuleInit`. -/
def inputModuleInit (i : Fin 4) : InputSut where
  inputOffTime := INPUT_RANGE 0
  inputLongTime := INPUT_RANGE 1
  inputTime := 0
  mode := .OPEN
  state := .INPUT_IDLE
  keyCode := KEY_CODE i

theorem inputModuleInit_ready (i : Fin 4) : (inputModuleInit i).Ready :=
  ⟨rfl, by decide +revert, by decide +revert⟩

/-- The first key is held down at the seventh low sample. -/
theorem debounced_first_key : (inputModuleInit 0).Debounced [0, 0, 1, 0, 0, 0, 0, 0, 0] 0 :=
  debounces (inputModuleInit_ready 0) _ _

end Stm32Templet.Input
