import Mathlib.Data.List.Basic

/-! # Messages on their way

A message that is sent joins a buffer or, if that is empty, may be handed over at once; from then
on until somebody has received it, it is in flight.  `Transit.Moves` is what it means that
nothing is lost, added or overtaken: the messages leave the buffer in the order in which they
were sent, and each of them is received, dropped or still in flight. -/

namespace Handoff

variable {α : Type}

/-- The messages in a buffer, the oldest first, and those in flight. -/
structure Transit (α : Type) where
  buffer : List α
  flight : List α

namespace Transit

/-- The messages that have left the buffer are `claimed`. -/
def Moves (s : Transit α) (sent received dropped : List α) (s' : Transit α) : Prop :=
  ∃ claimed, s.buffer ++ sent = claimed ++ s'.buffer ∧
    (s.flight ++ claimed).Perm (received ++ dropped ++ s'.flight)

variable {s s₁ s' : Transit α} {sent sent' received received' dropped dropped' : List α} {a : α}

theorem Moves.refl (s : Transit α) : s.Moves [] [] [] s :=
  ⟨[], List.append_nil s.buffer, .of_eq (List.append_nil s.flight)⟩

theorem Moves.trans (h : s.Moves sent received dropped s₁)
    (h' : s₁.Moves sent' received' dropped' s') :
    s.Moves (sent ++ sent') (received ++ received') (dropped ++ dropped') s' := by
  classical
  obtain ⟨claimed, hbuffer, hflight⟩ := h
  obtain ⟨claimed', hbuffer', hflight'⟩ := h'
  refine ⟨claimed ++ claimed', ?_, List.perm_iff_count.mpr fun a => ?_⟩
  · rw [← List.append_assoc, hbuffer, List.append_assoc, hbuffer', List.append_assoc]
  · have hcount := hflight.count_eq a
    have hcount' := hflight'.count_eq a
    simp only [List.count_append] at hcount hcount' ⊢
    omega

/-- A message joins the buffer. -/
theorem moves_put (hbuffer : s'.buffer = s.buffer ++ [a]) (hflight : s'.flight = s.flight) :
    s.Moves [a] [] [] s' :=
  ⟨[], hbuffer.symm, .of_eq (by rw [hflight]; exact List.append_nil s.flight)⟩

/-- The oldest message is received. -/
theorem moves_take (hbuffer : s.buffer = a :: s'.buffer) (hflight : s'.flight = s.flight) :
    s.Moves [] [a] [] s' :=
  ⟨[a], (List.append_nil s.buffer).trans hbuffer, by rw [hflight]; exact List.perm_append_comm⟩

/-- A message is handed over while the buffer is empty. -/
theorem moves_hand (hempty : s.buffer = []) (hbuffer : s'.buffer = s.buffer)
    (hflight : s'.flight.Perm (a :: s.flight)) : s.Moves [a] [] [] s' := by
  refine ⟨[a], ?_, ?_⟩
  · rw [hbuffer, hempty]
    rfl
  · exact List.perm_append_comm.trans hflight.symm

/-- Messages in flight are received or dropped. -/
theorem moves_flight (hbuffer : s'.buffer = s.buffer)
    (hflight : s.flight.Perm (received ++ dropped ++ s'.flight)) :
    s.Moves [] received dropped s' :=
  ⟨[], by rw [hbuffer]; exact List.append_nil s.buffer,
    (List.Perm.of_eq (List.append_nil s.flight)).trans hflight⟩

end Transit

end Handoff
