import Stm32Templet.Lib.Countdown
import Stm32Templet.Tasks.Module
import Mathlib.Order.Nat

/-! # The busy wait

`Delay_Us` of `SYSTEM/src/delay.c` as it is compiled for uC/OS: the loop reads the down-counter
`SysTick->VAL` on and on and adds up the differences of its values.  Where the counter has
reloaded it adds `reload-tnow+told`, one less than the counts passed, so `tcnt` is the time
elapsed less one count for each reload (`Wait.Counted`): the wait is never too short, and too
long by the reloads only.

`val` is what the reads return, the one in front of the loop included.  `OSSchedLock` and
`OSSchedUnlock` around the loop have no effect on it. -/

namespace Stm32Templet.Delay

open Countdown

/-! ### The loop -/

/-- The variables of the loop, and whether it was left. -/
structure Wait where
  told : UInt32
  tcnt : UInt32
  left : Bool

/-- One iteration, in which `SysTick->VAL` reads `tnow`. -/
def iteration (reload ticks tnow : UInt32) (s : Wait) : Wait :=
  if tnow ≠ s.told then
    let tcnt :=
      if tnow < s.told then s.tcnt + (s.told - tnow) else s.tcnt + (reload - tnow + s.told)
    ⟨tnow, tcnt, tcnt ≥ ticks⟩
  else s

/-- `Delay_Us`: the variables after the read number `k`, if the loop was not left before. -/
def delayUs (reload nus fac_us : UInt32) (val : ℕ → UInt32) : ℕ → Option Wait
  | 0 => some ⟨val 0, 0, false⟩
  | k + 1 =>
      match delayUs reload nus fac_us val k with
      | none => none
      | some s =>
          if s.left then none else some (iteration reload (nus * fac_us) (val (k + 1)) s)

/-! ### The clock -/

/-- The reads return the values of a counter with reload value `R` that is at `v` at the first
read, `t k` being the counts elapsed at the read number `k`; a read comes less than a revolution
after the one before. -/
structure Sampled (R v : ℕ) (t : ℕ → ℕ) (val : ℕ → UInt32) : Prop where
  start : v ≤ R
  zero : t 0 = 0
  mono : ∀ k, t k ≤ t (k + 1)
  close : ∀ k, t (k + 1) < t k + (R + 1)
  read : ∀ k, (val k).toNat = counter R v (t k)

/-- The read number `k` differs from the one before, and the counts elapsed, less the reloads,
have reached `N`. -/
def Due (N R v : ℕ) (t : ℕ → ℕ) (val : ℕ → UInt32) (k : ℕ) : Prop :=
  k ≠ 0 ∧ val k ≠ val (k - 1) ∧ N + reloads R v (t k) ≤ t k

/-- The variables of a loop that waits for `N` counts, after the read number `k`. -/
structure Wait.Counted (N R v : ℕ) (t : ℕ → ℕ) (val : ℕ → UInt32) (k : ℕ) (s : Wait) : Prop where
  told : s.told = val k
  tcnt : s.tcnt.toNat + reloads R v (t k) = t k
  left : s.left = true ↔ Due N R v t val k
  low : s.left = false → s.tcnt.toNat = 0 ∨ s.tcnt.toNat < N

variable {N R v : ℕ} {t : ℕ → ℕ} {val : ℕ → UInt32} {k : ℕ} {s : Wait} {reload ticks : UInt32}

theorem Sampled.same (h : Sampled R v t val) (heq : val (k + 1) = val k) : t (k + 1) = t k := by
  refine same_reading h.start (h.mono k) (h.close k) ?_
  rw [← h.read, ← h.read, heq]

/-- The increment of `tcnt`: the counts since the last read, less one for a reload. -/
theorem Sampled.increment (h : Sampled R v t val) (hr : reload.toNat = R)
    (hne : val (k + 1) ≠ val k) :
    (if val (k + 1) < val k then val k - val (k + 1)
        else reload - val (k + 1) + val k).toNat + reloads R v (t (k + 1)) + t k =
      t (k + 1) + reloads R v (t k) ∧
    (if val (k + 1) < val k then val k - val (k + 1)
        else reload - val (k + 1) + val k).toNat ≤ R := by
  have hold := h.read k
  have hnow := h.read (k + 1)
  have hle := counter_le h.start (t k)
  have hle' := counter_le h.start (t (k + 1))
  have hreload := reload.toNat_lt
  by_cases hlt : val (k + 1) < val k
  · rw [if_pos hlt]
    have hlt' := UInt32.lt_iff_toNat_lt.mp hlt
    obtain ⟨hsame, hpast⟩ := passed_down h.start (h.mono k) (h.close k) (by omega)
    rw [UInt32.toNat_sub_of_le _ _ (UInt32.le_of_lt hlt)]
    omega
  · rw [if_neg hlt]
    have hne' : (val (k + 1)).toNat ≠ (val k).toNat := fun e => hne (UInt32.toNat_inj.mp e)
    have hge := mt UInt32.lt_iff_toNat_lt.mpr hlt
    obtain ⟨hone, hpast⟩ := passed_zero h.start (h.mono k) (h.close k) (by omega)
    have hsub : (reload - val (k + 1)).toNat = reload.toNat - (val (k + 1)).toNat :=
      UInt32.toNat_sub_of_le _ _ (UInt32.le_iff_toNat_le.mpr (by omega))
    rw [UInt32.toNat_add, hsub, Nat.mod_eq_of_lt (by omega)]
    omega

theorem Wait.Counted.iteration (h : Sampled R v t val) (hr : reload.toNat = R)
    (hticks : ticks.toNat = N) (hN : N + R < 2 ^ 32) (hs : s.Counted N R v t val k)
    (hleft : s.left = false) :
    (iteration reload ticks (val (k + 1)) s).Counted N R v t val (k + 1) := by
  unfold Delay.iteration
  rw [hs.told]
  by_cases hne : val (k + 1) = val k
  · have htime := h.same hne
    rw [if_neg (by simpa using hne)]
    refine ⟨?_, ?_, ?_, hs.low⟩
    · rw [hs.told, hne]
    · rw [htime]
      exact hs.tcnt
    · rw [hleft]
      simp [Due, hne]
  · obtain ⟨hsum, hle⟩ := h.increment hr hne
    have hlow := hs.low hleft
    have htcnt := hs.tcnt
    rw [if_pos hne]
    simp only [← apply_ite (fun x => s.tcnt + x)]
    generalize hinc : (if val (k + 1) < val k then val k - val (k + 1)
      else reload - val (k + 1) + val k) = inc at hsum hle ⊢
    have hadd : (s.tcnt + inc).toNat = s.tcnt.toNat + inc.toNat := by
      rw [UInt32.toNat_add, Nat.mod_eq_of_lt (by omega)]
    refine ⟨rfl, ?_, ?_, ?_⟩
    · simp only [hadd]
      omega
    · simp only [Due, decide_eq_true_eq, ge_iff_le, UInt32.le_iff_toNat_le, Nat.add_sub_cancel]
      constructor
      · intro hge
        exact ⟨by omega, hne, by omega⟩
      · intro hdue
        have := hdue.2.2
        omega
    · intro hrun
      simp only [decide_eq_false_iff_not, ge_iff_le, UInt32.le_iff_toNat_le] at hrun
      simp only
      omega

/-! ### The wait -/

variable {nus fac_us : UInt32}

/-- The loop runs to the first read that is due. -/
theorem delayUs_cases (h : Sampled R v t val) (hr : reload.toNat = R)
    (hN : nus.toNat * fac_us.toNat + R < 2 ^ 32) (k : ℕ) :
    (∃ j < k, Due (nus.toNat * fac_us.toNat) R v t val j) ∧
        delayUs reload nus fac_us val k = none ∨
      (∀ j < k, ¬ Due (nus.toNat * fac_us.toNat) R v t val j) ∧
        ∃ s, delayUs reload nus fac_us val k = some s ∧
          s.Counted (nus.toNat * fac_us.toNat) R v t val k := by
  have hticks : (nus * fac_us).toNat = nus.toNat * fac_us.toNat := by
    rw [UInt32.toNat_mul, Nat.mod_eq_of_lt (by omega)]
  induction k with
  | zero =>
      refine Or.inr ⟨fun j hj => absurd hj (Nat.not_lt_zero j), _, rfl, rfl, ?_, ?_, ?_⟩
      · simp [h.zero, reloads]
      · simp [Due]
      · exact fun _ => Or.inl rfl
  | succ k ih =>
      unfold delayUs
      rcases ih with ⟨⟨j, hj, hdue⟩, hnone⟩ | ⟨hnever, s, hs, hcounted⟩
      · rw [hnone]
        exact Or.inl ⟨⟨j, by omega, hdue⟩, rfl⟩
      · rw [hs]
        cases hleft : s.left with
        | true => exact Or.inl ⟨⟨k, by omega, hcounted.left.mp hleft⟩, by simp [hleft]⟩
        | false =>
            refine Or.inr ⟨fun j hj => ?_, _, by simp [hleft],
              hcounted.iteration h hr hticks hN hleft⟩
            rcases Nat.lt_succ_iff_lt_or_eq.mp hj with hlt | rfl
            · exact hnever j hlt
            · rw [← hcounted.left, hleft]
              exact Bool.false_ne_true

/-- The loop is left at the read number `k`. -/
def Leaves (reload nus fac_us : UInt32) (val : ℕ → UInt32) (k : ℕ) : Prop :=
  ∃ s, delayUs reload nus fac_us val k = some s ∧ s.left = true

theorem leaves_iff (h : Sampled R v t val) (hr : reload.toNat = R)
    (hN : nus.toNat * fac_us.toNat + R < 2 ^ 32) :
    Leaves reload nus fac_us val k ↔
      IsLeast {k | Due (nus.toNat * fac_us.toNat) R v t val k} k := by
  constructor
  · intro hleaves
    obtain ⟨s, hs, hleft⟩ := hleaves
    rcases delayUs_cases h hr hN k with ⟨_, hnone⟩ | ⟨hnever, s', hs', hcounted⟩
    · rw [hnone] at hs
      cases hs
    · rw [hs', Option.some.injEq] at hs
      subst hs
      exact ⟨hcounted.left.mp hleft, fun j hj => Nat.le_of_not_lt fun hlt => hnever j hlt hj⟩
  · intro hleast
    rcases delayUs_cases h hr hN k with ⟨⟨j, hj, hdue⟩, _⟩ | ⟨_, s, hs, hcounted⟩
    · exact absurd (hleast.2 hdue) (Nat.not_le_of_lt hj)
    · exact ⟨s, hs, hcounted.left.mpr hleast.1⟩

/-- At every read `tcnt` is the time elapsed, less one count for each reload. -/
theorem tcnt_elapsed (h : Sampled R v t val) (hr : reload.toNat = R)
    (hN : nus.toNat * fac_us.toNat + R < 2 ^ 32)
    (hs : delayUs reload nus fac_us val k = some s) :
    s.tcnt.toNat + reloads R v (t k) = t k := by
  rcases delayUs_cases h hr hN k with ⟨_, hnone⟩ | ⟨_, s', hs', hcounted⟩
  · rw [hnone] at hs
    cases hs
  · rw [hs', Option.some.injEq] at hs
    subst hs
    exact hcounted.tcnt

theorem leaves_enough (h : Sampled R v t val) (hr : reload.toNat = R)
    (hN : nus.toNat * fac_us.toNat + R < 2 ^ 32) (hleaves : Leaves reload nus fac_us val k) :
    nus.toNat * fac_us.toNat ≤ t k := by
  have hdue : Due _ R v t val k := ((leaves_iff h hr hN).mp hleaves).1
  have := hdue.2.2
  omega

theorem delayUs_ends (h : Sampled R v t val) (hr : reload.toNat = R) (hR : 1 ≤ R)
    (hN : nus.toNat * fac_us.toNat + R < 2 ^ 32) (hgoes : ∀ n, ∃ k, n ≤ t k) :
    ∃ k, Leaves reload nus fac_us val k := by
  classical
  obtain ⟨j, hj⟩ := hgoes (2 * (nus.toNat * fac_us.toNat) + R)
  -- the first read that finds the counter moved after enough time
  have hmoves : ∃ k, t j < t k := hgoes (t j + 1)
  obtain ⟨hmoved, hfirst⟩ := Nat.isLeast_find hmoves
  have hdue : ∃ k, Due (nus.toNat * fac_us.toNat) R v t val k := by
    cases hk : Nat.find hmoves with
    | zero =>
        rw [hk, Set.mem_ofPred_eq, h.zero] at hmoved
        omega
    | succ k =>
        rw [hk] at hmoved hfirst
        refine ⟨k + 1, by omega, fun heq => ?_, ?_⟩
        · have hnot : ¬ t j < t k := fun hlt => by
            have := hfirst hlt
            omega
          have hsame := h.same heq
          rw [Set.mem_ofPred_eq] at hmoved
          omega
        · have hgrow := two_mul_reloads_le hR h.start (t (k + 1))
          rw [Set.mem_ofPred_eq] at hmoved
          omega
  exact ⟨_, (leaves_iff h hr hN).mpr (Nat.isLeast_find hdue)⟩

/-- What a wait for `N` counts is to do: `tcnt` counts the time less the reloads, the loop is not
left before `N` counts have passed, and it is left at the first read that is due. -/
structure Accurate (reload nus fac_us : UInt32) (N R v : ℕ) (t : ℕ → ℕ) (val : ℕ → UInt32) :
    Prop where
  counted : ∀ k s, delayUs reload nus fac_us val k = some s →
    s.tcnt.toNat + reloads R v (t k) = t k
  enough : ∀ k, Leaves reload nus fac_us val k → N ≤ t k
  first : ∀ k, Leaves reload nus fac_us val k ↔ IsLeast {k | Due N R v t val k} k

/-- As long as the counts waited for and one revolution fit in 32 bits, the wait is accurate. -/
theorem delayUs_accurate (h : Sampled R v t val) (hr : reload.toNat = R)
    (hN : nus.toNat * fac_us.toNat + R < 2 ^ 32) :
    Accurate reload nus fac_us (nus.toNat * fac_us.toNat) R v t val :=
  ⟨fun _ _ hs => tcnt_elapsed h hr hN hs, fun _ hleaves => leaves_enough h hr hN hleaves,
    fun _ => leaves_iff h hr hN⟩

theorem sampled_steady {n : ℕ} (hv : v ≤ R) (hn : n ≤ R) (hR : R < 2 ^ 32) :
    Sampled R v (fun k => n * k) fun k => UInt32.ofNat (counter R v (n * k)) := by
  refine ⟨hv, rfl, fun k => Nat.mul_le_mul_left n (by omega), fun k => ?_, fun k => ?_⟩
  · simp only [Nat.mul_succ]
    omega
  · have hle := counter_le hv (n * k)
    rw [UInt32.toNat_ofNat', Nat.mod_eq_of_lt (by omega)]

/-- Five microseconds at 72 MHz, the counter being read every hundred counts from `30` on. -/
theorem delayUs_five : Accurate 9000 5 9 45 9000 30 (fun k => 100 * k)
    fun k => UInt32.ofNat (counter 9000 30 (100 * k)) :=
  delayUs_accurate (sampled_steady (by decide) (by decide) (by decide)) rfl (by decide)

/-! ### The callers -/

/-- What `Delay_Init` sets up. -/
structure Factors where
  fac_us : UInt32
  fac_ms : UInt32
  LOAD : UInt32

def delayInit (SystemCoreClock : UInt32) : Factors where
  fac_us := SystemCoreClock / 8000000
  fac_ms := UInt32.ofNat (1000 / Tasks.OS_TICKS_PER_SEC)
  LOAD := SystemCoreClock / 8000000 * UInt32.ofNat (1000000 / Tasks.OS_TICKS_PER_SEC)

/-- `Delay_Ms`: the ticks given to `OSTimeDly`, if it is called, and the argument of
`Delay_Us`. -/
def delayMs (OSRunning : Bool) (fac_ms : UInt32) (nms : UInt16) : Option UInt32 × UInt32 :=
  if OSRunning then
    (if nms.toUInt32 ≥ fac_ms then some (nms.toUInt32 / fac_ms) else none,
      nms.toUInt32 % fac_ms * 1000)
  else (none, nms.toUInt32 * 1000)

theorem delayMs_le (OSRunning : Bool) (fac_ms : UInt32) (nms : UInt16) :
    (delayMs OSRunning fac_ms nms).2.toNat ≤ 65535 * 1000 := by
  have hnms := nms.toNat_lt
  unfold delayMs
  cases OSRunning with
  | true =>
      have hmod := Nat.mod_le nms.toNat fac_ms.toNat
      simp only [if_true, UInt32.toNat_mul, UInt32.toNat_mod, UInt16.toNat_toUInt32]
      refine (Nat.mod_le _ _).trans (Nat.mul_le_mul_right 1000 (by omega))
  | false =>
      simp only [Bool.false_eq_true, if_false, UInt32.toNat_mul, UInt16.toNat_toUInt32]
      refine (Nat.mod_le _ _).trans (Nat.mul_le_mul_right 1000 (by omega))

/-- At the clock of 72 MHz and below, `Delay_Ms` asks for waits that are not too short. -/
theorem delayMs_enough {SystemCoreClock : UInt32} (hclock : SystemCoreClock ≤ 72000000)
    (OSRunning : Bool) (nms : UInt16)
    (h : Sampled (delayInit SystemCoreClock).LOAD.toNat v t val)
    (hleaves : Leaves (delayInit SystemCoreClock).LOAD
      (delayMs OSRunning (delayInit SystemCoreClock).fac_ms nms).2
      (delayInit SystemCoreClock).fac_us val k) :
    (delayMs OSRunning (delayInit SystemCoreClock).fac_ms nms).2.toNat *
      (delayInit SystemCoreClock).fac_us.toNat ≤ t k := by
  refine leaves_enough h rfl ?_ hleaves
  have hus := delayMs_le OSRunning (delayInit SystemCoreClock).fac_ms nms
  have hclock' := UInt32.le_iff_toNat_le.mp hclock
  have hfac : (delayInit SystemCoreClock).fac_us.toNat ≤ 9 := by
    simp only [delayInit, UInt32.toNat_div]
    exact Nat.div_le_div_right hclock'
  have hload : (delayInit SystemCoreClock).LOAD.toNat ≤ 9000 := by
    simp only [delayInit, UInt32.toNat_mul, UInt32.toNat_div]
    exact (Nat.mod_le _ _).trans (Nat.mul_le_mul_right 1000 hfac)
  have hmul := Nat.mul_le_mul hus hfac
  omega

end Stm32Templet.Delay
