import Stm32Templet.At.Bounds

/-! # One final result for each line

A terminal that talks to the AT interpreter waits for `OK` or `ERROR` after each line it has
sent.  Here is why the waiting ends and nothing is left over: every newline makes the
interpreter print exactly one of the two, wherever the newline is met, in the search for a
head (`replies_searchHead`) or at the end of a recorded line, and there for every dispatch form
and in every handler (`replies_cmdProcess`); no other byte does (`replies_recvByte`). -/

namespace Stm32Templet.At

open Runs

/-! ### Results -/

/-- `OK` or `ERROR`. -/
def Out.isFinal (o : Out) : Bool := o = .printf "\r\nOK\r\n" || o = .printf "\r\nERROR\r\n"

/-- The text that a newline gets while a command is processed. -/
def Out.isBusy (o : Out) : Bool := o = .printf "\r\nbusy p...\r\n"

/-- What was printed between `e` and `e'` has `n` final results, and nobody was told to wait. -/
def Replies (n : ℕ) (e e' : Env) : Prop :=
  ∃ out, e'.out = e.out ++ out ∧ out.countP Out.isFinal = n ∧ ∀ o ∈ out, o.isBusy = false

variable {n m : ℕ} {e e₁ e' : Env} {s s' : Port} {b : UInt8}

theorem Replies.silent (h : e'.out = e.out) : Replies 0 e e' :=
  ⟨[], by rw [h, List.append_nil], rfl, fun _ h => absurd h List.not_mem_nil⟩

theorem Replies.trans (h : Replies n e e₁) (h' : Replies m e₁ e') : Replies (n + m) e e' := by
  obtain ⟨out, ho, hn, hb⟩ := h
  obtain ⟨out', ho', hm, hb'⟩ := h'
  refine ⟨out ++ out', by rw [ho', ho, List.append_assoc], ?_, fun o hmem => ?_⟩
  · rw [List.countP_append, hn, hm]
  · exact (List.mem_append.mp hmem).elim (hb o) (hb' o)

theorem Replies.one (o : Out) (h : e'.out = e.out ++ [o]) (hb : o.isBusy = false) :
    Replies (if o.isFinal then 1 else 0) e e' := by
  refine ⟨[o], h, ?_, fun o' ho => List.mem_singleton.mp ho ▸ hb⟩
  rw [List.countP_singleton]

theorem replies_backOk (e : Env) : Replies 1 e e.backOk :=
  Replies.one (.printf "\r\nOK\r\n") rfl (by decide)

theorem replies_backError (e : Env) : Replies 1 e e.backError :=
  Replies.one (.printf "\r\nERROR\r\n") rfl (by decide)

/-- A text that does not begin with a line end is no result. -/
theorem replies_printf {t : String} (ht : t.toList.head? ≠ some '\r') (e : Env) :
    Replies 0 e (e.printf t) := by
  have hne : ∀ u : String, u.toList.head? = some '\r' → Out.printf t ≠ .printf u := by
    rintro u hu ⟨⟩
    exact ht hu
  have hfinal : (Out.printf t).isFinal = false := by
    simp [Out.isFinal, hne "\r\nOK\r\n" rfl, hne "\r\nERROR\r\n" rfl]
  have hbusy : (Out.printf t).isBusy = false := by
    simp [Out.isBusy, hne "\r\nbusy p...\r\n" rfl]
  have h : Replies _ e (e.printf t) := Replies.one (.printf t) rfl hbusy
  rwa [hfinal] at h

/-! ### Handlers -/

theorem replies_exeCmdGmr (id : ℕ) (e : Env) : Replies 1 e (exeCmdGmr id e) :=
  (replies_printf (by decide) e).trans (replies_backOk _)

theorem replies_testCmdDebug (e : Env) : Replies 1 e (testCmdDebug 6 e) :=
  (replies_printf (by simp [cmdName]) e).trans (replies_backOk _)

theorem replies_queryCmdDebug (e : Env) : Replies 1 e (queryCmdDebug 6 e) :=
  (replies_printf (by simp [cmdName]) e).trans (replies_backOk _)

theorem replies_setupCmdE (id : ℕ) (line : ℕ → UInt8) (p : ℕ) (e : Env) :
    Replies 1 e (setupCmdE id line p e) := by
  unfold setupCmdE
  split
  · exact (Replies.silent rfl).trans (replies_backOk _)
  · split
    · exact (Replies.silent rfl).trans (replies_backOk _)
    · exact replies_backError e

theorem replies_setupCmdDebug (id : ℕ) (line : ℕ → UInt8) (p : ℕ) (e : Env) :
    Replies 1 e (setupCmdDebug id line p e) := by
  simp only [setupCmdDebug]
  split
  · exact (Replies.silent rfl).trans (replies_backOk _)
  · exact (Replies.silent rfl).trans (replies_backError _)

/-- The handlers of an entry of the command table. -/
structure Answering (f : FuncationType) (id : ℕ) : Prop where
  exe : ∀ g ∈ f.at_exeCmd, ∀ e, Replies 1 e (g id e)
  query : ∀ g ∈ f.at_queryCmd, ∀ e, Replies 1 e (g id e)
  test : ∀ g ∈ f.at_testCmd, ∀ e, Replies 1 e (g id e)
  setup : ∀ g ∈ f.at_setupCmd, ∀ line p e, Replies 1 e (g id line p e)

theorem answering_atFun : ∀ id, Answering (atFun id) id
  | 0 => ⟨by rintro _ ⟨⟩; exact replies_backOk, nofun, nofun, nofun⟩
  | 1 => ⟨nofun, nofun, nofun, by rintro _ ⟨⟩; exact replies_setupCmdE 1⟩
  | 2 => ⟨by rintro _ ⟨⟩; exact replies_backOk, nofun, nofun, nofun⟩
  | 3 => ⟨by rintro _ ⟨⟩; exact replies_exeCmdGmr 3, nofun, nofun, nofun⟩
  | 4 => ⟨nofun, nofun, nofun, by rintro _ ⟨⟩; exact fun _ _ => replies_backOk⟩
  | 5 => ⟨nofun, nofun, nofun, by rintro _ ⟨⟩; exact fun _ _ => replies_backOk⟩
  | 6 => ⟨nofun, by rintro _ ⟨⟩; exact replies_queryCmdDebug,
      by rintro _ ⟨⟩; exact replies_testCmdDebug, by rintro _ ⟨⟩; exact replies_setupCmdDebug 6⟩
  | _ + 7 => ⟨nofun, nofun, nofun, nofun⟩

theorem replies_callOr {α : Type} {handler : Option α} {call : α → Env → Env}
    (h : ∀ f ∈ handler, ∀ e, Replies 1 e (call f e)) (e : Env) :
    Replies 1 e (callOr (handler.map call) e) := by
  cases handler with
  | none => exact replies_backError e
  | some f => exact h f rfl e

theorem replies_dispatch (id : ℕ) (line : ℕ → UInt8) (p : ℕ) (e : Env) :
    Replies 1 e (dispatch id line p e) := by
  unfold dispatch
  split_ifs
  · exact replies_callOr (answering_atFun id).exe e
  · exact replies_callOr (answering_atFun id).query e
  · exact replies_callOr (answering_atFun id).test e
  · exact replies_callOr (fun f hf => (answering_atFun id).setup f hf line p) e
  · exact replies_backError e

theorem replies_cmdProcess (line : ℕ → UInt8) (e : Env) : Replies 1 e (cmdProcess line e) := by
  rw [cmdProcess_eq]
  split
  · exact replies_dispatch _ line _ e
  · exact replies_backError e

/-! ### Bytes -/

/-- The machine is searching or recording, and commands end its work on a line. -/
structure Port.Ready (s : Port) : Prop where
  specialAtState : s.specialAtState = true
  at_state : s.at_state = .at_statIdle ∨ s.at_state = .at_statRecving

theorem replies_echo (b : UInt8) (s : Port) : Replies 0 s.env (echo b s).env := by
  unfold echo
  split
  · dsimp only
    split
    · exact Replies.one (.setData [b]) rfl rfl
    · exact Replies.silent rfl
  · exact Replies.silent rfl

theorem replies_searchHead (s : Port) :
    Replies (if s.temp = chr '\n' then 1 else 0) s.env (searchHead s).env := by
  have hhead : s.temp = chr '\n' →
      ¬ ((s.atHead.2, s.temp) = (chr 'A', chr 'T') ∨
        (s.atHead.2, s.temp) = (chr 'a', chr 't')) := by
    intro h
    rw [h, Prod.mk.injEq, Prod.mk.injEq]
    rintro (⟨_, h⟩ | ⟨_, h⟩)
    · exact absurd h (by decide)
    · exact absurd h (by decide)
  unfold searchHead
  by_cases ht : s.temp = chr '\n'
  · simp only [if_neg (hhead ht), if_pos ht]
    exact replies_backError s.env
  · simp only [if_neg ht]
    split
    · exact Replies.silent rfl
    · exact Replies.silent rfl

theorem replies_recordByte (s : Port) :
    Replies (if s.temp = chr '\n' then 1 else 0) s.env (recordByte s).env := by
  by_cases ht : s.temp = chr '\n'
  · have hproc : ∀ {t : Port} {e : Env}, t.at_state = .at_statProcess → t.env = e →
        Replies 1 e (procTask t).env := by
      rintro t _ hst rfl
      simp only [procTask, hst, if_true]
      split
      · exact replies_cmdProcess t.at_cmdLine t.env
      · exact replies_cmdProcess t.at_cmdLine t.env
    simp only [recordByte, Port.store, ht, if_true]
    split
    · have hecho : Replies 0 s.env ((s.setData [13, 10]).printf "\r\n").env :=
        (Replies.one (.setData [13, 10]) rfl rfl).trans
          (Replies.one (.printf "\r\n") rfl (by decide))
      refine Replies.trans (m := 1) hecho ?_
      apply hproc
      · rfl
      · rfl
    · exact hproc rfl rfl
  · simp only [recordByte, Port.store, ht, if_false]
    by_cases hlast : s.pCmdLine ≥ at_cmdLenMax - 1
    · simp only [hlast, if_true]
      exact Replies.silent rfl
    · simp only [hlast, if_false]
      exact Replies.silent rfl

/-- Every newline is answered with one final result, and no other byte with any. -/
theorem replies_recvByte (h : s.Ready) (b : UInt8) :
    Replies (if b = chr '\n' then 1 else 0) s.env (recvByte b s).env := by
  obtain ⟨out, temp, he, htemp⟩ := echo_eq b s
  have hecho := replies_echo b s
  have hb : temp = b := by
    apply htemp
    rcases h.at_state with hi | hr
    · rw [hi]
      decide
    · rw [hr]
      decide
  rw [← Nat.zero_add (ite _ _ _)]
  refine hecho.trans ?_
  rcases h.at_state with hi | hr
  · have hsearch := replies_searchHead (echo b s)
    simp only [recvByte, he, hi, hb] at hsearch ⊢
    exact hsearch
  · have hrecord := replies_recordByte (echo b s)
    simp only [recvByte, he, hr, hb] at hrecord ⊢
    exact hrecord

theorem Port.Ready.recvByte (h : s.Ready) (b : UInt8) : (recvByte b s).Ready := by
  rcases h.at_state with hi | hr
  · obtain ⟨_, _, hspecial, hstate⟩ := recvByte_idle (b := b) hi
    exact ⟨hspecial.trans h.specialAtState, hstate.imp_right And.left⟩
  · by_cases hb : b = chr '\n'
    · subst hb
      obtain ⟨_, _, hspecial, hstate⟩ := recvByte_newline hr h.specialAtState
      exact ⟨hspecial, Or.inl hstate⟩
    · obtain ⟨_, _, hspecial, hstate, _⟩ := recvByte_body hr hb
      refine ⟨hspecial.trans h.specialAtState, ?_⟩
      rw [hstate]
      split
      · exact Or.inl rfl
      · exact Or.inr rfl

/-! ### Streams -/

def Event.isNewline : Event → Bool
  | .call _ => false
  | .byte b => b = chr '\n'

/-- What a terminal that has sent `n` lines may rely on. -/
structure Port.Answered (n : ℕ) (s : Port) : Prop where
  results : s.env.out.countP Out.isFinal = n
  patient : .printf "\r\nbusy p...\r\n" ∉ s.env.out
  at_state : s.at_state = .at_statIdle ∨ s.at_state = .at_statRecving

theorem replies_exec {es : List Event} (h : s.Ready) (hs : exec Port.step s es = some s') :
    s'.Ready ∧ Replies (es.countP Event.isNewline) s.env s'.env := by
  induction es generalizing s with
  | nil =>
      cases hs
      exact ⟨h, Replies.silent rfl⟩
  | cons e es ih =>
      obtain ⟨t, ht, hs⟩ := exec_cons.mp hs
      cases e with
      | call temp =>
          cases ht
          exact ih (s := { s with temp := temp }) ⟨h.specialAtState, h.at_state⟩ hs
      | byte b =>
          cases ht
          obtain ⟨hr, hrest⟩ := ih (h.recvByte b) hs
          refine ⟨hr, ?_⟩
          rw [List.countP_cons, Nat.add_comm]
          simpa [Event.isNewline] using (replies_recvByte h b).trans hrest

/-- For every stream and every way of cutting it into calls: whenever a byte is examined the
interpreter is searching or recording, and there have been as many final results as newlines,
and no `busy`. -/
theorem one_result_per_line (h : s.Start) (hout : s.env.out = []) {es : List Event}
    (hs : exec Port.step s es = some s') : s'.Answered (es.countP Event.isNewline) := by
  obtain ⟨hready, out, ho, hn, hbusy⟩ := replies_exec ⟨h.specialAtState, Or.inl h.at_state⟩ hs
  rw [hout, List.nil_append] at ho
  refine ⟨by rw [ho, hn], fun hmem => ?_, hready.at_state⟩
  exact absurd (hbusy _ (ho ▸ hmem)) (by decide)

/-- An empty line, then the line `ATE1` in two calls. -/
theorem results_of_two_lines : ∃ s', exec Port.step boot [.call 0, .byte 10, .byte 65, .byte 84,
      .call 0, .byte 69, .byte 49, .byte 13, .byte 10] = some s' ∧ s'.Answered 2 :=
  ⟨_, rfl, @one_result_per_line _ _ boot_start rfl [.call 0, .byte 10, .byte 65, .byte 84, .call 0,
    .byte 69, .byte 49, .byte 13, .byte 10] rfl⟩

end Stm32Templet.At
