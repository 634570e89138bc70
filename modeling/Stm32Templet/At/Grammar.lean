import Stm32Templet.At.Bounds
import Mathlib.Data.List.GetD
import Mathlib.Data.List.Infix
import Mathlib.Data.List.TakeWhile

/-! # What a command line asks for

The grammar of a line as a specification: a name, up to the first byte that ends names, and
behind it one of four forms (`requestOf`).  It speaks of the line alone.  The code does not
know where the line ends: the length scan runs over the newline and the `'\0'` into whatever
earlier commands have left in the buffer.  That does no harm, since no name has a newline in
it, and so the code does what the specification asks for, whatever stands behind the `'\0'`
(`cmdProcess_eq_perform`). -/

namespace Stm32Templet.At

/-! ### The specification -/

/-- The bytes of a string constant. -/
def ascii (t : String) : List UInt8 := t.toList.map chr

/-- A line without a newline in it, and the newline. -/
structure CommandLine where
  text : List UInt8
  oneLine : chr '\n' ∉ text
  fits : text.length < at_cmdLenMax - 1

def CommandLine.bytes (s : CommandLine) : List UInt8 := s.text ++ [chr '\n']

/-- What a line asks for: the entry of the command table and the form of the request. -/
inductive Request where
  | error
  | exe (id : ℕ)
  | query (id : ℕ)
  | test (id : ℕ)
  /-- The parameter is the rest of the line. -/
  | setup (id : ℕ) (r : List UInt8)
deriving DecidableEq

/-- The entry with the name `w`; the empty name is that of entry 0. -/
def entryOf (w : List UInt8) : Option ℕ :=
  (List.range at_cmdNum).find? fun id => ascii (atFun id).at_cmdName = w

/-- The form of a request, by what follows the name. -/
def form (id : ℕ) (r : List UInt8) : Request :=
  if ascii "\r" <+: r then .exe id
  else if ascii "?\r" <+: r then .query id
  else if ascii "=?\r" <+: r then .test id
  else if ∃ b ∈ r.head?, b = chr '=' ∨ isDigit b then .setup id r
  else .error

/-- The request of a line. -/
def requestOf (s : List UInt8) : Request :=
  let w := s.takeWhile fun b => !endsName b
  let r := s.dropWhile fun b => !endsName b
  match entryOf w with
  | none => .error
  | some id => if r = [] then .error else form id r

/-- The string `r`, alone in a buffer. -/
def alone (r : List UInt8) (i : ℕ) : UInt8 := r.getD i 0

/-- The handler that a request is for; `ERROR` if it is absent. -/
def Request.perform (e : Env) : Request → Env
  | .error => e.backError
  | .exe id => callOr ((atFun id).at_exeCmd.map (· id)) e
  | .query id => callOr ((atFun id).at_queryCmd.map (· id)) e
  | .test id => callOr ((atFun id).at_testCmd.map (· id)) e
  | .setup id r => callOr ((atFun id).at_setupCmd.map fun f => f id (alone r) 0) e

/-- The line stands at the start of the buffer, with a `'\0'` behind it. -/
def Stored (line : ℕ → UInt8) (s : List UInt8) : Prop := ∀ i ≤ s.length, line i = alone s i

/-! ### The length scan -/

variable {line : ℕ → UInt8} {s w r : List UInt8} {p : ℕ}

/-- The scan finds the first byte that ends names, if there is one among those it looks at. -/
theorem getCmdLenFrom_cases (line : ℕ → UInt8) (i n : ℕ) :
    (getCmdLenFrom line i n = -1 ∧ ∀ j, n ≤ j → j < n + i → endsName (line j) = false) ∨
      ∃ m, n ≤ m ∧ m < n + i ∧ (∀ j, n ≤ j → j < m → endsName (line j) = false) ∧
        endsName (line m) = true ∧ getCmdLenFrom line i n = int8 m := by
  induction i generalizing n with
  | zero => exact Or.inl ⟨rfl, fun j _ _ => by omega⟩
  | succ i ih =>
      unfold getCmdLenFrom
      by_cases hn : endsName (line n) = true
      · refine Or.inr ⟨n, le_rfl, by omega, fun j _ _ => by omega, hn, if_pos hn⟩
      · rw [if_neg hn]
        have hnext : ∀ j, n ≤ j → (n + 1 ≤ j → endsName (line j) = false) →
            endsName (line j) = false := by
          intro j hj h
          rcases Nat.eq_or_lt_of_le hj with rfl | hlt
          · exact Bool.eq_false_iff.mpr hn
          · exact h hlt
        rcases ih (n + 1) with ⟨he, hall⟩ | ⟨m, hm, hlt, hall, hend, he⟩
        · exact Or.inl ⟨he, fun j hj hlt => hnext j hj fun h => hall j h (by omega)⟩
        · exact Or.inr ⟨m, by omega, by omega,
            fun j hj hlt => hnext j hj fun h => hall j h hlt, hend, he⟩

theorem int8_of_lt {n : ℕ} (h : n < 128) : int8 n = n := by
  unfold int8
  omega

theorem getCmdLen_cases (line : ℕ → UInt8) :
    (getCmdLen line = -1 ∧ ∀ j < 128, endsName (line j) = false) ∨
      ∃ m < 128, (∀ j < m, endsName (line j) = false) ∧ endsName (line m) = true ∧
        getCmdLen line = m := by
  rcases getCmdLenFrom_cases line 128 0 with ⟨he, hall⟩ | ⟨m, _, hlt, hall, hend, he⟩
  · exact Or.inl ⟨he, fun j hj => hall j (Nat.zero_le j) (by omega)⟩
  · have hm : m < 128 := by omega
    exact Or.inr ⟨m, hm, fun j hj => hall j (Nat.zero_le j) hj, hend, he.trans (int8_of_lt hm)⟩

/-! ### The search of the table -/

theorem at_cmdLen_eq : ∀ id, (atFun id).at_cmdLen = (ascii (atFun id).at_cmdName).length
  | 0 => rfl
  | 1 => rfl
  | 2 => rfl
  | 3 => rfl
  | 4 => rfl
  | 5 => rfl
  | 6 => rfl
  | _ + 7 => rfl

theorem newline_not_mem_name : ∀ id, chr '\n' ∉ ascii (atFun id).at_cmdName
  | 0 => by decide
  | 1 => by decide
  | 2 => by decide
  | 3 => by decide
  | 4 => by decide
  | 5 => by decide
  | 6 => by decide
  | _ + 7 => List.not_mem_nil

/-- The bytes in front of `w.length` are those of `w`. -/
def Begins (line : ℕ → UInt8) (w : List UInt8) : Prop := (List.range w.length).map line = w

theorem entry_iff (h : Begins line w) (id : ℕ) :
    ((w.length : ℤ) = (atFun id).at_cmdLen ∧
      sameName line (atFun id).at_cmdName (w.length : ℤ).toNat = true) ↔
      ascii (atFun id).at_cmdName = w := by
  rw [at_cmdLen_eq, Int.toNat_natCast]
  unfold sameName
  rw [h, decide_eq_true_iff]
  change _ ∧ w = (ascii _).take w.length ↔ _
  constructor
  · rintro ⟨hlen, hw⟩
    rw [hw, Int.ofNat_inj.mp hlen, List.take_length]
  · rintro rfl
    exact ⟨rfl, List.take_length.symm⟩

/-- The loop of `at_cmdSearch` finds the first entry with the name. -/
theorem cmdSearchFrom_eq (h : Begins line w) (k i : ℕ) :
    cmdSearchFrom w.length line k i =
      (((List.range' i k).find? fun id => ascii (atFun id).at_cmdName = w).map
        Int.ofNat).getD (-1) := by
  induction k generalizing i with
  | zero => rfl
  | succ k ih =>
      rw [List.range'_succ, List.find?_cons]
      unfold cmdSearchFrom
      by_cases hi : ascii (atFun i).at_cmdName = w
      · rw [if_pos ((entry_iff h i).mpr hi), decide_eq_true hi]
        rfl
      · rw [if_neg (mt (entry_iff h i).mp hi), decide_eq_false hi]
        exact ih (i + 1)

theorem cmdSearch_eq (h : Begins line w) :
    cmdSearch w.length line = ((entryOf w).map Int.ofNat).getD (-1) := by
  have hrange : List.range at_cmdNum = 0 :: List.range' 1 (at_cmdNum - 1) := by decide
  unfold cmdSearch entryOf
  rw [hrange, List.find?_cons]
  by_cases hw : w = []
  · subst hw
    rfl
  · have hpos : 0 < w.length := List.length_pos_iff.mpr hw
    have hzero : ascii (atFun 0).at_cmdName ≠ w := Ne.symm hw
    rw [if_neg (by omega), if_pos (by omega), decide_eq_false hzero, cmdSearchFrom_eq h]

/-! ### Dispatch -/

/-- Comparing with the bytes of a constant does not lead out of the string. -/
theorem prefix_iff {t : List UInt8} (ht : 0 ∉ t) (hr : ∀ i ≤ r.length, line (p + i) = alone r i) :
    t <+: r ↔ Begins (fun i => line (p + i)) t := by
  induction t generalizing r p with
  | nil => exact iff_of_true List.nil_prefix rfl
  | cons c t ih =>
      rw [List.mem_cons, not_or] at ht
      have hzero : line p = alone r 0 := hr 0 (Nat.zero_le _)
      have hsplit : Begins (fun i => line (p + i)) (c :: t) ↔
          alone r 0 = c ∧ Begins (fun i => line (p + 1 + i)) t := by
        unfold Begins
        rw [List.length_cons, List.range_succ_eq_map, List.map_cons, List.map_map,
          List.cons_eq_cons, ← hzero]
        simp only [Function.comp_def, Nat.succ_eq_add_one, Nat.add_right_comm p, Nat.add_zero,
          ← Nat.add_assoc]
      rw [hsplit]
      cases r with
      | nil => exact iff_of_false (by simp) fun h => ht.1 h.1
      | cons a r =>
          rw [List.cons_prefix_cons, ih ht.2 fun i hi => ?_]
          · exact and_congr_left fun _ => eq_comm
          · rw [Nat.add_assoc, Nat.add_comm 1]
            exact hr (i + 1) (Nat.succ_le_succ hi)

/-- A scan that stops at a `'\0'` does not see what stands behind it. -/
theorem takeWhile_range {g : ℕ → UInt8} : ∀ {r : List UInt8} {n : ℕ}, r.length < n →
    (∀ i ≤ r.length, g i = alone r i) →
    ((List.range n).map g).takeWhile (· ≠ 0) = r.takeWhile (· ≠ 0) := by
  intro r
  induction r generalizing g with
  | nil =>
      rintro (_ | n) hn hg
      · omega
      · have hzero : g 0 = 0 := hg 0 le_rfl
        rw [List.range_succ_eq_map, List.map_cons, hzero]
        rfl
  | cons a r ih =>
      rintro (_ | n) hn hg
      · omega
      · have hhead : g 0 = a := hg 0 (Nat.zero_le _)
        rw [List.range_succ_eq_map, List.map_cons, List.map_map, hhead, List.takeWhile_cons,
          List.takeWhile_cons]
        have hrest := ih (g := g ∘ Nat.succ) (Nat.lt_of_succ_lt_succ hn) fun i hi =>
          hg (i + 1) (Nat.succ_le_succ hi)
        rw [hrest]

theorem cString_eq (hr : ∀ i ≤ r.length, line (p + i) = alone r i)
    (hp : p + r.length ≤ at_cmdLenMax) : cString line p = r.takeWhile (· ≠ 0) :=
  takeWhile_range (by omega) hr

theorem Stored.tail (h : Stored line (w ++ r)) (i : ℕ) (hi : i ≤ r.length) :
    line (w.length + i) = alone r i := by
  rw [h _ (by rw [List.length_append]; omega), alone, alone,
    List.getD_append_right _ _ _ _ (by omega), Nat.add_sub_cancel_left]

theorem Stored.begins (h : Stored line (w ++ r)) : Begins line w := by
  refine List.ext_getElem (by simp) fun i h₁ h₂ => ?_
  have hi := h i (by rw [List.length_append]; omega)
  rw [alone, List.getD_append _ _ _ _ h₂, List.getD_eq_getElem _ _ h₂] at hi
  simpa using hi

/-- A handler of a setup request reads its parameter and nothing behind it. -/
theorem setup_alone (hr : ∀ i ≤ r.length, line (p + i) = alone r i)
    (hp : p + r.length ≤ at_cmdLenMax) : ∀ id, ∀ f ∈ (atFun id).at_setupCmd, ∀ e,
    f id line p e = f id (alone r) 0 e := by
  have hhead : line p = alone r 0 := hr 0 (Nat.zero_le _)
  have hstring : cString line p = cString (alone r) 0 := by
    rw [cString_eq hr hp, cString_eq (fun i _ => by rw [Nat.zero_add]) (by omega)]
  rintro (_ | _ | _ | _ | _ | _ | _ | _) f ⟨⟩ e
  · simp only [setupCmdE, hhead]
  · rfl
  · rfl
  · simp only [setupCmdDebug, hstring]

theorem callOr_congr {α : Type} {handler : Option α} {call call' : α → Env → Env} {e : Env}
    (h : ∀ f ∈ handler, call f e = call' f e) :
    callOr (handler.map call) e = callOr (handler.map call') e := by
  cases handler with
  | none => rfl
  | some f => exact h f rfl

/-- What is done for an entry depends on the rest of the line only. -/
theorem dispatch_eq (id : ℕ) (e : Env) (hr : ∀ i ≤ r.length, line (p + i) = alone r i)
    (hne : r ≠ []) (hp : p + r.length ≤ at_cmdLenMax) :
    dispatch id line p e = (form id r).perform e := by
  have hexe : ascii "\r" <+: r ↔ line p = chr '\r' := by
    rw [prefix_iff (by decide) hr]
    simp [Begins, ascii]
  have hquery : ascii "?\r" <+: r ↔ line p = chr '?' ∧ line (p + 1) = chr '\r' := by
    rw [prefix_iff (by decide) hr]
    simp [Begins, ascii, List.range_succ]
  have htest : ascii "=?\r" <+: r ↔
      line p = chr '=' ∧ line (p + 1) = chr '?' ∧ line (p + 2) = chr '\r' := by
    rw [prefix_iff (by decide) hr]
    simp [Begins, ascii, List.range_succ]
  have hsetup : (∃ b ∈ r.head?, b = chr '=' ∨ isDigit b = true) ↔
      isDigit (line p) = true ∨ line p = chr '=' := by
    obtain ⟨b, t, rfl⟩ := List.exists_cons_of_ne_nil hne
    have hb : line p = b := hr 0 (Nat.zero_le _)
    simp [hb, or_comm]
  unfold dispatch form
  simp only [← hexe, ← hquery, ← htest, ← hsetup]
  split_ifs
  · rfl
  · rfl
  · rfl
  · exact callOr_congr fun f hf => setup_alone hr hp id f hf e
  · rfl

/-! ### Lines -/

theorem split_name (s : List UInt8) : ∃ w r, s.takeWhile (fun b => !endsName b) = w ∧
    s.dropWhile (fun b => !endsName b) = r ∧ s = w ++ r ∧ (∀ b ∈ w, endsName b = false) ∧
    ∀ b ∈ r.head?, endsName b = true := by
  refine ⟨_, _, rfl, rfl, List.takeWhile_append_dropWhile.symm, fun b hb => ?_, fun b hb => ?_⟩
  · simpa using List.mem_takeWhile_imp hb
  · have := List.head?_dropWhile_not (fun b => !endsName b) s
    rw [hb] at this
    simpa using this

/-- A line with a byte that ends names: the scan stops there. -/
theorem getCmdLen_of_rest (h : Stored line (w ++ r)) (hw : ∀ b ∈ w, endsName b = false)
    (hr : ∀ b ∈ r.head?, endsName b = true) (hne : r ≠ []) (hlt : w.length < at_cmdLenMax) :
    getCmdLen line = w.length := by
  have hinside : ∀ j < w.length, endsName (line j) = false := by
    intro j hj
    rw [h j (by rw [List.length_append]; omega), alone, List.getD_append _ _ _ _ hj,
      List.getD_eq_getElem _ _ hj]
    exact hw _ (List.getElem_mem hj)
  have hend : endsName (line w.length) = true := by
    obtain ⟨b, t, rfl⟩ := List.exists_cons_of_ne_nil hne
    exact (congrArg endsName (h.tail 0 (Nat.zero_le _))).trans (hr b rfl)
  rcases getCmdLen_cases line with ⟨_, hall⟩ | ⟨m, _, hall, hm, he⟩
  · exact absurd (hall w.length hlt) (by rw [hend]; decide)
  · rcases Nat.lt_trichotomy m w.length with hlt | rfl | hgt
    · exact absurd hm (by rw [hinside m hlt]; decide)
    · exact he
    · exact absurd (hall _ hgt) (by rw [hend]; decide)

/-- A line without one: the scan leaves the line, and no entry has a newline in its name. -/
theorem cmdIdOf_of_name (s : CommandLine) (h : Stored line s.bytes)
    (hs : ∀ b ∈ s.bytes, endsName b = false) : cmdIdOf line = -1 := by
  unfold cmdIdOf
  rcases getCmdLen_cases line with ⟨he, _⟩ | ⟨m, hm, hall, hend, he⟩
  · rw [he]
    rfl
  · have hlong : s.text.length < m := by
      by_contra hle
      have hlt : m < s.bytes.length := by
        simp only [CommandLine.bytes, List.length_append, List.length_singleton]
        omega
      rw [h m hlt.le, alone, List.getD_eq_getElem _ _ hlt, hs _ (List.getElem_mem hlt)] at hend
      exact absurd hend (by decide)
    set w := (List.range m).map line with hw
    have hbegins : Begins line w := by
      rw [hw, Begins, List.length_map, List.length_range]
    have hmem : chr '\n' ∈ w := by
      refine List.mem_map.mpr ⟨s.text.length, List.mem_range.mpr hlong, ?_⟩
      rw [h _ (by simp [CommandLine.bytes])]
      simp [alone, CommandLine.bytes]
    have hnone : entryOf w = none := by
      refine List.find?_eq_none.mpr fun id _ hid => newline_not_mem_name id ?_
      rwa [of_decide_eq_true hid]
    have hlen : (m : ℤ) = w.length := by simp [hw]
    rw [he, hlen, cmdSearch_eq hbegins, hnone]
    exact ite_self _

/-- What the code does is what the grammar asks for. -/
theorem cmdProcess_eq_perform (s : CommandLine) (h : Stored line s.bytes) (e : Env) :
    cmdProcess line e = (requestOf s.bytes).perform e := by
  obtain ⟨w, r, hw, hr, hs, hname, hrest⟩ := split_name s.bytes
  have hlen : w.length + r.length < at_cmdLenMax := by
    have := congrArg List.length hs
    simp only [CommandLine.bytes, List.length_append, List.length_singleton] at this
    have := s.fits
    omega
  rw [cmdProcess_eq]
  simp only [requestOf, hw, hr]
  by_cases hne : r = []
  · have hall : ∀ b ∈ s.bytes, endsName b = false := by
      rwa [hs, hne, List.append_nil]
    rw [cmdIdOf_of_name s h hall, if_neg (by decide)]
    split
    · rfl
    · rw [if_pos hne]
      rfl
  · rw [hs] at h
    have hscan := getCmdLen_of_rest h hname hrest hne (by omega)
    have hsearch : cmdIdOf line = ((entryOf w).map Int.ofNat).getD (-1) := by
      unfold cmdIdOf
      rw [hscan, if_pos (by omega), cmdSearch_eq h.begins]
    rw [hsearch, hscan]
    cases entryOf w with
    | none => rfl
    | some id =>
        simp only [Option.map_some, Option.getD_some, if_neg hne]
        rw [if_pos (by simp)]
        exact dispatch_eq id e h.tail hne (by omega)

/-- Every line is answered as the grammar says, and old contents of the buffer behind it make
no difference. -/
theorem answered_by_grammar (s : CommandLine) (h : Stored line s.bytes) (e : Env) :
    cmdProcess line e = (requestOf s.bytes).perform e ∧
      ∀ line', Stored line' s.bytes → cmdProcess line' e = cmdProcess line e := by
  have hline := cmdProcess_eq_perform s h e
  exact ⟨hline, fun line' h' => (cmdProcess_eq_perform s h' e).trans hline.symm⟩

/-- A setup command over the rest of a longer one. -/
def debugLine : CommandLine := ⟨ascii "+DEBUG=50\r", by decide, by decide⟩

theorem debugLine_answered :
    cmdProcess (fun i => (debugLine.bytes ++ 0 :: ascii "=1?\r\n").getD i 0) boot.env =
        (requestOf debugLine.bytes).perform boot.env ∧
      ∀ line', Stored line' debugLine.bytes → cmdProcess line' boot.env =
        cmdProcess (fun i => (debugLine.bytes ++ 0 :: ascii "=1?\r\n").getD i 0) boot.env :=
  answered_by_grammar debugLine (by unfold Stored; decide) boot.env

end Stm32Templet.At
