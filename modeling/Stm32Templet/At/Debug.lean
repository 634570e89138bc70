import Stm32Templet.At.Grammar

/-! # The level of debug output

`+DEBUG` is advertised with the range 0 to 100.  The handler of its setup form tests one side
of the range, and it does not look at what `sscanf` returns: a negative number is accepted and
narrowed to 16 bits, and where the text has no number the handler goes on with whatever its
local variable holds.  A run of commands is handled as advertised, then, exactly if no number
is negative and each of these variables holds more than 100 (`handled_iff_defined`). -/

namespace Stm32Templet.At

open Runs

/-! ### The specification -/

/-- The level that a parameter asks for: `=` and a number in the range. -/
def levelOf (r : List UInt8) : Option ℕ :=
  match sscanfAssign (r.takeWhile (· ≠ 0)) with
  | some data => if 0 ≤ data ∧ data ≤ 100 then some data.toNat else none
  | none => none

/-- The parameter is answered with `OK` and its level set, or with `ERROR` and nothing changed. -/
def Handled (r : List UInt8) (e e' : Env) : Prop :=
  match levelOf r with
  | some level => e'.out = e.out ++ [.printf "\r\nOK\r\n"] ∧ e'.DebugLevel = level
  | none => e'.out = e.out ++ [.printf "\r\nERROR\r\n"] ∧ e'.DebugLevel = e.DebugLevel

/-- The number is not negative; where there is none, the local variable is out of range. -/
def Defined (r : List UInt8) (e : Env) : Prop :=
  match sscanfAssign (r.takeWhile (· ≠ 0)) with
  | some data => 0 ≤ data
  | none => 100 < e.undef e.used

/-! ### One call of the handler -/

variable {r : List UInt8} {e e' : Env} {s : CommandLine}

theorem cString_alone (hr : r.length ≤ at_cmdLenMax) :
    cString (alone r) 0 = r.takeWhile (· ≠ 0) :=
  cString_eq (fun i _ => by rw [Nat.zero_add]) (by omega)

/-- The handler does what is advertised for its parameter in the cases above and in no other. -/
theorem setupCmdDebug_handled (id : ℕ) (hr : r.length ≤ at_cmdLenMax) (e : Env) :
    Handled r e (setupCmdDebug id (alone r) 0 e) ↔ Defined r e := by
  have hne : ∀ l : List Out, l ++ [.printf "\r\nOK\r\n"] ≠ l ++ [.printf "\r\nERROR\r\n"] := by
    intro l h
    exact absurd (List.append_cancel_left h) (by decide)
  unfold Handled levelOf Defined
  simp only [setupCmdDebug, cString_alone hr]
  cases sscanfAssign (r.takeWhile (· ≠ 0)) with
  | some data =>
      simp only [Option.getD_some]
      by_cases hneg : data < 0
      · rw [if_neg (by omega), if_pos (by omega)]
        exact iff_of_false (fun h => hne _ h.1) (by omega)
      · by_cases hle : data ≤ 100
        · rw [if_pos ⟨by omega, hle⟩, if_pos hle, Int.emod_eq_of_lt (by omega) (by omega)]
          exact iff_of_true ⟨rfl, rfl⟩ (by omega)
        · rw [if_neg (by omega), if_neg hle]
          exact iff_of_true ⟨rfl, rfl⟩ (by omega)
  | none =>
      simp only [Option.getD_none]
      by_cases hle : e.undef e.used ≤ 100
      · rw [if_pos hle]
        exact iff_of_false (fun h => hne _ h.1) (by omega)
      · rw [if_neg hle]
        exact iff_of_true ⟨rfl, rfl⟩ (by omega)

/-! ### Sequences of commands -/

/-- A line in the buffer, whatever stands behind it. -/
structure Command where
  buffer : ℕ → UInt8
  line : CommandLine
  stored : Stored buffer line.bytes

/-- `at_cmdProcess` as a system: the events are the commands. -/
def Env.step (e : Env) (c : Command) : Option Env := some (cmdProcess c.buffer e)

/-- A setup of the level is handled as advertised. -/
def SetupHandled (e : Env) (c : Command) : Prop :=
  ∀ r, requestOf c.line.bytes = .setup 6 r → Handled r e (cmdProcess c.buffer e)

/-- The parameter of a setup of the level has a defined value. -/
def SetupDefined (e : Env) (c : Command) : Prop :=
  ∀ r, requestOf c.line.bytes = .setup 6 r → Defined r e

/-- The level after a sequence of lines, by their texts. -/
def levelAfter (level : ℕ) (lines : List CommandLine) : ℕ :=
  lines.foldl (fun level s => match requestOf s.bytes with
    | .setup 6 r => (levelOf r).getD level
    | _ => level) level

theorem setup_rest {id : ℕ} {l : List UInt8} (h : requestOf l = .setup id r) :
    r = l.dropWhile fun b => !endsName b := by
  simp only [requestOf] at h
  split at h
  · cases h
  · split at h
    · cases h
    · unfold form at h
      split_ifs at h
      exact (Request.setup.inj h).2.symm

theorem length_setup {id : ℕ} (h : requestOf s.bytes = .setup id r) : r.length ≤ at_cmdLenMax := by
  rw [setup_rest h]
  have hdrop := List.length_dropWhile_le (fun b => !endsName b) s.bytes
  have hfits := s.fits
  simp only [CommandLine.bytes, List.length_append, List.length_singleton] at hdrop ⊢
  omega

/-- The handlers of an entry other than the setup of the level. -/
structure Keeping (f : FuncationType) (id : ℕ) : Prop where
  exe : ∀ g ∈ f.at_exeCmd, ∀ e, (g id e).DebugLevel = e.DebugLevel
  query : ∀ g ∈ f.at_queryCmd, ∀ e, (g id e).DebugLevel = e.DebugLevel
  test : ∀ g ∈ f.at_testCmd, ∀ e, (g id e).DebugLevel = e.DebugLevel
  setup : id ≠ 6 → ∀ g ∈ f.at_setupCmd, ∀ line p e, (g id line p e).DebugLevel = e.DebugLevel

theorem setupCmdE_level (id : ℕ) (line : ℕ → UInt8) (p : ℕ) (e : Env) :
    (setupCmdE id line p e).DebugLevel = e.DebugLevel := by
  unfold setupCmdE
  split
  · rfl
  · split
    · rfl
    · rfl

theorem keeping_atFun : ∀ id, Keeping (atFun id) id
  | 0 => ⟨by rintro _ ⟨⟩ e; rfl, nofun, nofun, nofun⟩
  | 1 => ⟨nofun, nofun, nofun, by rintro _ _ ⟨⟩; exact setupCmdE_level 1⟩
  | 2 => ⟨by rintro _ ⟨⟩ e; rfl, nofun, nofun, nofun⟩
  | 3 => ⟨by rintro _ ⟨⟩ e; rfl, nofun, nofun, nofun⟩
  | 4 => ⟨nofun, nofun, nofun, by rintro _ _ ⟨⟩ line p e; rfl⟩
  | 5 => ⟨nofun, nofun, nofun, by rintro _ _ ⟨⟩ line p e; rfl⟩
  | 6 => ⟨nofun, by rintro _ ⟨⟩ e; rfl, by rintro _ ⟨⟩ e; rfl, fun h => absurd rfl h⟩
  | _ + 7 => ⟨nofun, nofun, nofun, nofun⟩

theorem callOr_level {α : Type} {handler : Option α} {call : α → Env → Env}
    (h : ∀ f ∈ handler, ∀ e, (call f e).DebugLevel = e.DebugLevel) (e : Env) :
    (callOr (handler.map call) e).DebugLevel = e.DebugLevel := by
  cases handler with
  | none => rfl
  | some f => exact h f rfl e

theorem perform_level (q : Request) (h : ∀ r, q ≠ .setup 6 r) (e : Env) :
    (q.perform e).DebugLevel = e.DebugLevel := by
  cases q with
  | error => rfl
  | exe id => exact callOr_level (keeping_atFun id).exe e
  | query id => exact callOr_level (keeping_atFun id).query e
  | test id => exact callOr_level (keeping_atFun id).test e
  | setup id r =>
      have hid : id ≠ 6 := fun hid => h r (hid ▸ rfl)
      exact callOr_level (fun f hf => (keeping_atFun id).setup hid f hf _ _) e

theorem setupHandled_iff (e : Env) (c : Command) : SetupHandled e c ↔ SetupDefined e c := by
  refine forall_congr' fun r => forall_congr' fun hr => ?_
  rw [cmdProcess_eq_perform c.line c.stored, hr]
  exact setupCmdDebug_handled 6 (length_setup hr) e

theorem level_step (c : Command) (h : SetupDefined e c) :
    (cmdProcess c.buffer e).DebugLevel = levelAfter e.DebugLevel [c.line] := by
  have hhandled := (setupHandled_iff e c).mpr h
  unfold levelAfter
  rw [List.foldl_cons, List.foldl_nil]
  split
  · rename_i r hr
    have hlevel := hhandled r hr
    unfold Handled at hlevel
    cases hl : levelOf r with
    | none =>
        rw [hl] at hlevel
        exact hlevel.2
    | some level =>
        rw [hl] at hlevel
        exact hlevel.2
  · rename_i hother
    rw [cmdProcess_eq_perform c.line c.stored]
    exact perform_level _ hother e

theorem levelOf_le {level : ℕ} (h : levelOf r = some level) : level ≤ 100 := by
  unfold levelOf at h
  split at h
  · split at h
    · cases h
      omega
    · cases h
  · cases h

theorem levelAfter_cons (level : ℕ) (s : CommandLine) (lines : List CommandLine) :
    levelAfter level (s :: lines) = levelAfter (levelAfter level [s]) lines := rfl

theorem levelAfter_single_le {level : ℕ} (h : level ≤ 100) (s : CommandLine) :
    levelAfter level [s] ≤ 100 := by
  unfold levelAfter
  rw [List.foldl_cons, List.foldl_nil]
  split
  · rename_i r _
    cases hl : levelOf r with
    | none => exact h
    | some level => exact levelOf_le hl
  · exact h

/-- A sequence of commands is handled as advertised exactly if all parameters are defined.
Then the level stays in the range, and it is the one that the texts ask for. -/
theorem handled_iff_defined (h : e.DebugLevel ≤ 100) (cs : List Command) :
    (Along Env.step SetupHandled e cs ↔ Along Env.step SetupDefined e cs) ∧
      (Along Env.step SetupDefined e cs → ∀ e', exec Env.step e cs = some e' →
        e'.DebugLevel ≤ 100 ∧ e'.DebugLevel = levelAfter e.DebugLevel (cs.map Command.line)) := by
  constructor
  · exact along_congr (I := fun _ => True) (A := fun _ _ => True) (fun _ _ _ _ _ _ => trivial)
      (fun e c _ _ => setupHandled_iff e c) trivial (along_true e cs)
  · intro hdef e' hs
    induction cs generalizing e with
    | nil =>
        cases hs
        exact ⟨h, rfl⟩
    | cons c cs ih =>
        obtain ⟨t, ht, hs⟩ := exec_cons.mp hs
        have hlevel : t.DebugLevel = levelAfter e.DebugLevel [c.line] := by
          cases ht
          exact level_step c hdef.1
        obtain ⟨hle, heq⟩ := ih (hlevel ▸ levelAfter_single_le h c.line) (hdef.2 t ht) hs
        refine ⟨hle, ?_⟩
        rw [heq, hlevel]
        exact (levelAfter_cons e.DebugLevel c.line _).symm

/-! ### A negative level -/

/-- A line alone in the buffer. -/
def Command.alone (s : CommandLine) : Command := ⟨At.alone s.bytes, s, fun _ _ => rfl⟩

theorem handled_one_setup :
    (Along Env.step SetupHandled boot.env [.alone debugLine] ↔
      Along Env.step SetupDefined boot.env [.alone debugLine]) ∧
      ∀ e', exec Env.step boot.env [.alone debugLine] = some e' →
        e'.DebugLevel ≤ 100 ∧ e'.DebugLevel = levelAfter boot.env.DebugLevel [debugLine] := by
  have hdef : Along Env.step SetupDefined boot.env [.alone debugLine] := by
    have hreq : requestOf debugLine.bytes = .setup 6 (ascii "=50\r\n") := by decide
    have hscan : sscanfAssign ((ascii "=50\r\n").takeWhile (· ≠ 0)) = some 50 := by decide
    refine ⟨fun r hr => ?_, fun _ _ => trivial⟩
    cases hreq.symm.trans hr
    rw [Defined, hscan]
    decide
  obtain ⟨hiff, hlevel⟩ := handled_iff_defined (e := boot.env) (by decide) [.alone debugLine]
  exact ⟨hiff, hlevel hdef⟩

def negativeLine : CommandLine := ⟨ascii "+DEBUG=-1\r", by decide, by decide⟩

/-- The level -1 is answered with `OK`, and it becomes 65535. -/
theorem negative_level_accepted :
    ¬ ∀ (e : Env) (c : Command), e.DebugLevel ≤ 100 → SetupHandled e c := by
  intro h
  have hhandled := h boot.env (.alone negativeLine) (by decide) (ascii "=-1\r\n") (by decide)
  exact absurd hhandled.2 (by decide)

end Stm32Templet.At
