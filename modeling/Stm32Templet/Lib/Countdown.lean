import Mathlib.Tactic.Ring

/-! # A counter that counts down and reloads

`counter R v t` is the value after `t` counts of a counter that starts at `v` and goes from `0`
back to `R`; `reloads R v t` is the number of times it has done so.  A revolution takes `R + 1`
counts (`counter_add`).  Two values read less than a revolution apart tell by their order alone
whether the counter has reloaded in between (`passed_down`, `passed_zero`). -/

namespace Countdown

/-- One count. -/
def tick (R c : ℕ) : ℕ := if c = 0 then R else c - 1

def counter (R v : ℕ) : ℕ → ℕ
  | 0 => v
  | t + 1 => tick R (counter R v t)

def reloads (R v : ℕ) : ℕ → ℕ
  | 0 => 0
  | t + 1 => if counter R v t = 0 then reloads R v t + 1 else reloads R v t

variable {R v t t' : ℕ}

theorem counter_le (hv : v ≤ R) (t : ℕ) : counter R v t ≤ R := by
  induction t with
  | zero => exact hv
  | succ t ih =>
      unfold counter tick
      split <;> omega

/-- The counts are those from the start to the value reached, and a revolution for each
reload. -/
theorem counter_add (R v t : ℕ) : counter R v t + t = v + reloads R v t * (R + 1) := by
  induction t with
  | zero => simp [counter, reloads]
  | succ t ih =>
      unfold counter reloads tick
      by_cases h : counter R v t = 0
      · rw [if_pos h, if_pos h]
        rw [h] at ih
        have hstep : (reloads R v t + 1) * (R + 1) = reloads R v t * (R + 1) + (R + 1) := by ring
        omega
      · rw [if_neg h, if_neg h]
        omega

theorem reloads_mono (R v : ℕ) (h : t ≤ t') : reloads R v t ≤ reloads R v t' := by
  induction t', h using Nat.le_induction with
  | base => exact le_rfl
  | succ n _ ih =>
      refine ih.trans ?_
      rw [reloads]
      split <;> omega

/-- Less than a revolution contains at most one reload. -/
theorem reloads_le_succ (hv : v ≤ R) (hclose : t' < t + (R + 1)) :
    reloads R v t' ≤ reloads R v t + 1 := by
  by_contra hlt
  have htwo : (reloads R v t + 2) * (R + 1) ≤ reloads R v t' * (R + 1) :=
    Nat.mul_le_mul_right _ (by omega)
  have hexp : (reloads R v t + 2) * (R + 1) = reloads R v t * (R + 1) + 2 * (R + 1) := by ring
  have h := counter_add R v t
  have h' := counter_add R v t'
  have hle := counter_le hv t'
  omega

/-- The reloads and the distance of two readings, less than a revolution apart. -/
theorem reading_cases (hv : v ≤ R) (hle : t ≤ t') (hclose : t' < t + (R + 1)) :
    reloads R v t' = reloads R v t ∧ counter R v t' + (t' - t) = counter R v t ∨
      reloads R v t' = reloads R v t + 1 ∧
        counter R v t' + (t' - t) = counter R v t + (R + 1) := by
  have h := counter_add R v t
  have h' := counter_add R v t'
  have hmono := reloads_mono R v hle
  have hone := reloads_le_succ hv hclose
  rcases Nat.eq_or_lt_of_le hmono with heq | hlt
  · rw [← heq] at h'
    exact Or.inl ⟨heq.symm, by omega⟩
  · have hsucc : reloads R v t' = reloads R v t + 1 := by omega
    have hexp : (reloads R v t + 1) * (R + 1) = reloads R v t * (R + 1) + (R + 1) := by ring
    rw [hsucc, hexp] at h'
    exact Or.inr ⟨hsucc, by omega⟩

theorem same_reading (hv : v ≤ R) (hle : t ≤ t') (hclose : t' < t + (R + 1))
    (h : counter R v t' = counter R v t) : t' = t := by
  rcases reading_cases hv hle hclose with ⟨_, hd⟩ | ⟨_, hd⟩ <;> omega

/-- A smaller value: the counter has gone down to it. -/
theorem passed_down (hv : v ≤ R) (hle : t ≤ t') (hclose : t' < t + (R + 1))
    (h : counter R v t' < counter R v t) :
    reloads R v t' = reloads R v t ∧ t' = t + (counter R v t - counter R v t') := by
  rcases reading_cases hv hle hclose with ⟨hr, hd⟩ | ⟨_, hd⟩
  · exact ⟨hr, by omega⟩
  · omega

/-- A larger value: the counter has reloaded once. -/
theorem passed_zero (hv : v ≤ R) (hle : t ≤ t') (hclose : t' < t + (R + 1))
    (h : counter R v t < counter R v t') :
    reloads R v t' = reloads R v t + 1 ∧
      t' = t + (R - counter R v t' + counter R v t) + 1 := by
  have hR := counter_le hv t'
  rcases reading_cases hv hle hclose with ⟨_, hd⟩ | ⟨hr, hd⟩
  · omega
  · exact ⟨hr, by omega⟩

/-- A revolution takes two counts at least, so the counts outgrow the reloads. -/
theorem two_mul_reloads_le (hR : 1 ≤ R) (hv : v ≤ R) (t : ℕ) :
    2 * reloads R v t ≤ t + R := by
  have h := counter_add R v t
  have hle := counter_le hv t
  have hmul : reloads R v t * 2 ≤ reloads R v t * (R + 1) := Nat.mul_le_mul_left _ (by omega)
  omega

end Countdown
