import Stm32Templet.Usart.Transmit

/-! # `Usart_SetData` against the transmit ring

Three outcomes of a call, by the number of free slots it finds (one slot of the ring is
never used, so a ring of length `L` with `u` unsent bytes has `L - 1 - u` free ones).

* The data fits: all of it is published, under any interrupts (`safe_setData`).
* No slot is free: nothing is published and `0` is returned (`setData_run_full`).
* Some slots are free and the data exceeds them: the loop stores one byte more than it
  counts, and the head is published on top of the tail (`setData_run_over`). -/

namespace Stm32Templet.Usart

open Atomic Circular

variable {L : ℕ} {d : Device} {v : TxView} {unsent : List UInt8}

/-- The view of a task that starts a call: what is free now, and a new goal. -/
theorem TxInv.fresh (h : TxInv L d v unsent) (hi : v.phase = .idle) (goal : List UInt8)
    (hg : v.pub <+: goal) :
    TxInv L d ⟨v.head, L - 1 - unsent.length, [], v.pub, goal, .idle⟩ unsent := by
  have hroom := h.room
  exact { h with
    held := by
      rw [List.append_nil]
      exact h.held.initial (List.prefix_append _ _)
    room := by simp only; omega
    staged_le := by simp
    goal := hg
    goal_eq := fun hn => absurd rfl hn
    off := fun hf hu => absurd hi (h.off hf hu)
    pending := fun _ hn => absurd rfl hn
    armed := fun he => by cases he }

theorem Device.Empty.txInv (h : d.Empty L) :
    TxInv L d ⟨d.buf.pSendBufH, L - 1, [], [], [], .idle⟩ [] where
  len := h.len
  head := rfl
  tail_lt := h.send_lt
  head_eq := by rw [h.send]; exact (Nat.mod_eq_of_lt h.send_lt).symm
  held := .nil
  room := by have := h.send_lt; simp only [List.length_nil]; omega
  staged_le := by simp
  sent := by rw [h.dr]; rfl
  goal := List.prefix_rfl
  goal_eq _ := rfl
  on ht := by rw [h.txeie] at ht; cases ht
  off _ hn := absurd rfl hn
  pending _ hn := absurd rfl hn
  armed hp := by cases hp

/-! ### Data that fits -/

/-- The copy loop stays clear of the tail when the slots are free. -/
theorem safe_setLoop {pE : ℕ} (pData : List UInt8) (i pH : ℕ) (v : TxView)
    (hi : v.phase = .idle) (hf : v.free < L) (hE : pE = (v.head + (v.free + 1)) % L)
    (hH : pH = (v.head + v.staged.length) % L)
    (hfit : v.staged.length + pData.length ≤ v.free) :
    Safe (txSpec L) (fun r v' =>
      r = (i + pData.length, (v.head + (v.staged ++ pData).length) % L) ∧
      v' = { v with staged := v.staged ++ pData }) (setLoop L pE pData i pH) v := by
  induction pData generalizing i pH v with
  | nil =>
      rw [setLoop, safe_ret, List.append_nil, ← hH]
      exact ⟨rfl, rfl⟩
  | cons b pData ih =>
      rw [List.length_cons] at hfit
      refine ⟨⟨hi, hH, by omega⟩, ?_⟩
      rintro _ v' rfl
      have hn : next L pH = (v.head + (v.staged.length + 1)) % L := by
        rw [hH, next_add_mod (by omega)]
      have hne : next L pH ≠ pE := by
        rw [hn, hE]
        intro e
        have := add_mod_inj (n := L) (s := v.head + 1) (i := v.staged.length) (j := v.free)
          (by omega) hf (by rw [← Nat.add_assoc, ← Nat.add_assoc] at e
                            rw [Nat.add_right_comm, e, Nat.add_right_comm])
        omega
      rw [if_neg hne]
      have hrest := ih (i + 1) (next L pH) { v with staged := v.staged ++ [b] }
        hi hf hE (by rw [hn]; simp) (by simp; omega)
      apply hrest.mono
      rintro r v' ⟨rfl, rfl⟩
      refine ⟨?_, ?_⟩
      · simp only [List.length_cons, List.append_assoc, List.singleton_append]
        congr 1
        omega
      · simp only [List.append_assoc, List.singleton_append]

/-- A call whose data fits publishes all of it and reports its size. -/
theorem safe_setData (pData : List UInt8) (hi : v.phase = .idle) (hs : v.staged = [])
    (hfit : pData.length ≤ v.free) (hg : v.pub ++ pData = v.goal) :
    Safe (txSpec L) (fun r v' => r = pData.length ∧ v'.phase = .idle ∧ v'.pub = v.goal ∧
      v'.goal = v.goal) (setData L pData) v := by
  by_cases hd : pData = []
  · subst hd
    rw [setData_nil, safe_ret]
    exact ⟨rfl, hi, by rw [← hg, List.append_nil], rfl⟩
  rw [setData_eq hd]
  refine ⟨hi, ?_⟩
  rintro _ _ ⟨hhead, f, hf, hfL, rfl, rfl⟩
  have hloop := safe_setLoop (L := L) pData 0 v.head { v with free := f } hi hfL rfl
    (by simp [hs, Nat.mod_eq_of_lt hhead]) (by simp only [hs, List.length_nil]; omega)
  refine hloop.bind ?_
  rintro _ _ ⟨rfl, rfl⟩
  have hlen : 0 + pData.length ≠ 0 := by simpa using hd
  rw [publish, if_neg hlen]
  refine ⟨⟨hi, rfl, by simp [hd], by simp [hs]; omega, by simp [hs, hg]⟩, ?_⟩
  rintro _ _ rfl
  refine ⟨rfl, ?_⟩
  rintro cr1 _ rfl
  by_cases ht : tst cr1 7 = true
  · simp only [ht, if_true, safe_ret, Nat.zero_add]
    exact ⟨trivial, trivial, trivial, trivial⟩
  · simp only [ht, if_false, Bool.false_eq_true]
    refine ⟨rfl, ?_⟩
    rintro _ _ rfl
    exact ⟨Nat.zero_add _, rfl, rfl, rfl⟩

/-! ### A full ring -/

/-- With no free slot the first byte is stored in the unused slot and not counted. -/
theorem setData_run_full (h : TxInv L d v unsent) (hs : v.staged = [])
    (hfull : unsent.length + 1 = L) (b : UInt8) (pData : List UInt8) :
    (setData L (b :: pData)).run access d =
      (0, (access (.storeSend ((v.head + v.staged.length) % L) b) d).2) := by
  have hpos := h.pos
  have hH : (v.head + v.staged.length) % L = d.buf.pSendBufH := by
    rw [hs, h.head, List.length_nil, Nat.add_zero, Nat.mod_eq_of_lt h.head_lt]
  have hmeet : next L d.buf.pSendBufH = d.buf.pSendBufE := by
    rw [h.head, next_eq_mod h.head_lt, h.tail_eq (f := 0) (by omega)]
  rw [setData_eq (List.cons_ne_nil b pData), Prog.run_act, Prog.run_bind]
  simp only [access, setLoop, hmeet, if_true, Prog.run_act, Prog.run_ret, publish, hH]

/-! ### Data beyond the free slots -/

/-- The copy loop changes the contents of the ring only. -/
theorem setLoop_run_frame (L pE : ℕ) (pData : List UInt8) (i pH : ℕ) (d : Device) :
    ∃ f, ((setLoop L pE pData i pH).run access d).2 = { d with buf.pSendBuf := f } := by
  induction pData generalizing i pH d with
  | nil => exact ⟨d.buf.pSendBuf, rfl⟩
  | cons b pData ih =>
      rw [setLoop, Prog.run_act]
      split
      · exact ⟨Function.update d.buf.pSendBuf pH b, rfl⟩
      · obtain ⟨f, hf⟩ := ih (i + 1) (next L pH) (access (.storeSend pH b) d).2
        exact ⟨f, hf⟩

/-- With `free` slots left and more data than that, the loop stops on the tail and has
counted every byte but the last. -/
theorem setLoop_run_over {pE : ℕ} (hL : 0 < L) : ∀ (pData : List UInt8) (i pH free : ℕ)
    (d : Device), pH < L → free < L → pE = (pH + (free + 1)) % L → free < pData.length →
    ((setLoop L pE pData i pH).run access d).1 = (i + free, pE)
  | [], _, _, _, _, _, _, _, h => absurd h (Nat.not_lt_zero _)
  | b :: pData, i, pH, 0, d, hH, _, hE, _ => by
      have hmeet : next L pH = pE := by rw [next_eq_mod hH, hE]
      rw [setLoop, Prog.run_act, if_pos hmeet, hmeet]
      rfl
  | b :: pData, i, pH, free + 1, d, hH, hf, hE, hover => by
      have hn : next L pH = (pH + 1) % L := next_eq_mod hH
      have hne : next L pH ≠ pE := by
        rw [hn, hE]
        intro e
        have := add_mod_inj (n := L) (s := pH + 1) (i := 0) (j := free + 1) (by omega) hf
          (by rw [Nat.add_zero, e]; congr 1; omega)
        omega
      rw [setLoop, Prog.run_act, if_neg hne,
        setLoop_run_over hL pData (i + 1) (next L pH) free _ (next_lt hH) (by omega) ?_
          (by simpa using hover)]
      · congr 1
        omega
      · rw [hn, hE, Nat.mod_add_mod]
        congr 1
        omega

/-- A call with more data than free slots, some slot being free: it reports the free slots,
the head meets the tail and the interrupt is on. -/
theorem setData_run_over (h : TxInv L d v unsent) (pData : List UInt8)
    (hfree : unsent.length + 1 < L) (hover : L ≤ unsent.length + pData.length) :
    ((setData L pData).run access d).1 = L - 1 - unsent.length ∧
      ∃ d', ((setData L pData).run access d).2 = d' ∧ d'.buf.len = L ∧
        d'.buf.pSendBufH = d'.buf.pSendBufE ∧ d'.buf.pSendBufE < L ∧ d'.dr = d.dr ∧
        d'.txeie = true := by
  have hd : pData ≠ [] := by
    rintro rfl
    simp only [List.length_nil] at hover
    omega
  have hE := h.tail_eq (f := L - 1 - unsent.length) (by omega)
  have hcount := setLoop_run_over h.pos pData 0 v.head (L - 1 - unsent.length) d h.head_lt
    (by omega) hE (by omega)
  obtain ⟨f, hframe⟩ := setLoop_run_frame L d.buf.pSendBufE pData 0 v.head d
  rw [setData_eq hd, Prog.run_act, Prog.run_bind]
  simp only [access, h.head]
  rw [hcount, hframe, publish, if_neg (by simp only; omega)]
  simp only [Prog.run_act, access]
  by_cases ht : tst d.cr1 7 = true
  · simp only [ht, if_true, Prog.run_ret, Nat.zero_add, true_and]
    exact ⟨_, rfl, h.len, rfl, h.tail_lt, rfl, ht⟩
  · simp only [ht, if_false, Bool.false_eq_true, Prog.run_act, Prog.run_ret, Nat.zero_add,
      true_and, access]
    exact ⟨_, rfl, h.len, rfl, h.tail_lt, rfl, tst_or d.cr1⟩

end Stm32Templet.Usart
