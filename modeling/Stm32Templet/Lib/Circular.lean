import Mathlib.Data.List.Basic
import Mathlib.Logic.Function.Basic
import Mathlib.Tactic.Ring

/-! # Sequences stored in a circular array

`Holds f n start l` says that the list `l` stands in the `n` slots of the array `f`, in
order, from slot `start` on and wrapping at the end.  The lemmas are the operations of a
queue on such a representation: appending behind the last element (`Holds.push`), taking the
first one out (`Holds.head`, `Holds.tail`), writing a slot outside the sequence
(`Holds.frame`).  Nothing here depends on where the indices come from; `next` is the
increment with wrap-around test and `dist` the number of slots from one index to another.

A sequence that is written on and on outgrows the array; `Recent f n start l` says that its
last `n` elements are still there.  What stands between the first slot and the last one
written is then a final part of the sequence (`Recent.contents`). -/

namespace Circular

variable {α : Type}

/-- The list `l` occupies the slots `start, start + 1, …` of the circular array `f`. -/
def Holds (f : ℕ → α) (n start : ℕ) (l : List α) : Prop :=
  ∀ i, (h : i < l.length) → f ((start + i) % n) = l[i]

/-- The `k` elements from slot `start` on. -/
def contents (f : ℕ → α) (n start k : ℕ) : List α :=
  (List.range k).map fun i => f ((start + i) % n)

/-- The following slot. -/
def next (n i : ℕ) : ℕ := if i + 1 ≥ n then 0 else i + 1

/-- The number of slots from `start` up to, but not including, `stop`. -/
def dist (n start stop : ℕ) : ℕ := (stop + n - start) % n

/-! ### Index arithmetic -/

theorem next_eq_mod {n i : ℕ} (h : i < n) : next n i = (i + 1) % n := by
  unfold next
  split
  · have : i + 1 = n := by omega
    rw [this, Nat.mod_self]
  · rw [Nat.mod_eq_of_lt (by omega)]

theorem next_lt {n i : ℕ} (h : i < n) : next n i < n := by
  unfold next
  split <;> omega

theorem next_add_mod {n s i : ℕ} (hn : 0 < n) : next n ((s + i) % n) = (s + (i + 1)) % n := by
  rw [next_eq_mod (Nat.mod_lt _ hn), Nat.mod_add_mod, Nat.add_assoc]

/-- An offset below `n` is the sum or exceeds it by one revolution. -/
theorem add_mod_cases {n s i : ℕ} (hs : s < n) (hi : i ≤ n) :
    (s + i) % n = s + i ∧ s + i < n ∨ (s + i) % n = s + i - n ∧ n ≤ s + i := by
  rcases Nat.lt_or_ge (s + i) n with h | h
  · exact Or.inl ⟨Nat.mod_eq_of_lt h, h⟩
  · refine Or.inr ⟨?_, h⟩
    rcases Nat.lt_or_ge (s + i - n) n with h' | h'
    · rw [Nat.mod_eq_sub_mod h, Nat.mod_eq_of_lt h']
    · omega

theorem add_mod_inj {n s i j : ℕ} (hi : i < n) (hj : j < n)
    (h : (s + i) % n = (s + j) % n) : i = j := by
  have hs : s % n < n := Nat.mod_lt _ (by omega)
  rw [← Nat.mod_add_mod s, ← Nat.mod_add_mod s n j] at h
  rcases add_mod_cases hs hi.le with ⟨e, _⟩ | ⟨e, _⟩ <;>
    rcases add_mod_cases hs hj.le with ⟨e', _⟩ | ⟨e', _⟩ <;> omega

theorem dist_add_mod {n s k : ℕ} (hs : s < n) (hk : k < n) : dist n s ((s + k) % n) = k := by
  unfold dist
  rcases add_mod_cases hs hk.le with ⟨e, h⟩ | ⟨e, h⟩
  · rw [e, show s + k + n - s = k + n by omega, Nat.add_mod_right, Nat.mod_eq_of_lt hk]
  · rw [e, show s + k - n + n - s = k by omega, Nat.mod_eq_of_lt hk]

theorem add_dist_mod {n s t : ℕ} (hs : s < n) (ht : t < n) : (s + dist n s t) % n = t := by
  unfold dist
  rw [Nat.add_mod_mod, show s + (t + n - s) = t + n by omega, Nat.add_mod_right,
    Nat.mod_eq_of_lt ht]

/-! ### Stored sequences -/

variable {f : ℕ → α} {n s : ℕ} {l l' : List α} {a : α}

theorem Holds.nil : Holds f n s ([] : List α) := fun _ h => absurd h (Nat.not_lt_zero _)

@[simp] theorem contents_length (f : ℕ → α) (n s k : ℕ) : (contents f n s k).length = k := by
  simp [contents]

theorem contents_succ (f : ℕ → α) (n s k : ℕ) :
    contents f n s (k + 1) = f (s % n) :: contents f n (s + 1) k := by
  unfold contents
  rw [List.range_succ_eq_map, List.map_cons, List.map_map, Nat.add_zero]
  refine congrArg _ (List.map_congr_left fun i _ => ?_)
  rw [Function.comp_apply, Nat.succ_eq_add_one, Nat.add_right_comm, Nat.add_assoc]

theorem holds_iff_contents : Holds f n s l ↔ contents f n s l.length = l := by
  constructor
  · intro h
    refine List.ext_getElem (by simp [contents]) fun i h₁ h₂ => ?_
    simpa [contents] using h i h₂
  · intro h i hi
    have hlen : i < (contents f n s l.length).length := by simpa [contents] using hi
    have hc : (contents f n s l.length)[i] = l[i] := List.getElem_of_eq h hlen
    simpa [contents] using hc

theorem Holds.append_iff :
    Holds f n s (l ++ l') ↔ Holds f n s l ∧ Holds f n ((s + l.length) % n) l' := by
  constructor
  · intro h
    refine ⟨fun i hi => ?_, fun i hi => ?_⟩
    · have := h i (by simp; omega)
      rwa [List.getElem_append_left hi] at this
    · have := h (l.length + i) (by simp; omega)
      rw [List.getElem_append_right (by omega)] at this
      simpa [Nat.mod_add_mod, Nat.add_assoc] using this
  · rintro ⟨h, h'⟩ i hi
    rcases Nat.lt_or_ge i l.length with hlt | hge
    · rw [List.getElem_append_left hlt]
      exact h i hlt
    · rw [List.getElem_append_right hge, ← h' (i - l.length) (by simp at hi; omega)]
      rw [Nat.mod_add_mod, Nat.add_assoc, Nat.add_sub_cancel' hge]

theorem Holds.head (h : Holds f n s (a :: l)) : f (s % n) = a :=
  h 0 (Nat.succ_pos _)

theorem Holds.tail (h : Holds f n s (a :: l)) : Holds f n ((s + 1) % n) l :=
  (append_iff (l := [a]).mp h).2

theorem Holds.frame (h : Holds f n s l) {k : ℕ} (hk : l.length ≤ k) (hn : k < n) :
    Holds (Function.update f ((s + k) % n) a) n s l := by
  intro i hi
  rw [Function.update_of_ne, h i hi]
  intro e
  have := add_mod_inj (by omega) hn e
  omega

theorem Holds.push (h : Holds f n s l) (hn : l.length < n) :
    Holds (Function.update f ((s + l.length) % n) a) n s (l ++ [a]) := by
  refine append_iff.mpr ⟨h.frame le_rfl hn, ?_⟩
  intro i hi
  have hi0 : i = 0 := by simpa using hi
  subst hi0
  simp

theorem Holds.initial (h : Holds f n s l') (hp : l <+: l') : Holds f n s l := by
  obtain ⟨t, rfl⟩ := hp
  exact (append_iff.mp h).1

theorem Holds.drop (h : Holds f n s l) {k : ℕ} (hk : k ≤ l.length) :
    Holds f n ((s + k) % n) (l.drop k) := by
  have h' := h
  rw [← List.take_append_drop k l, append_iff, List.length_take, Nat.min_eq_left hk] at h'
  exact h'.2

/-! ### Sequences that overwrite themselves -/

/-- The last `n` elements of `l`, which was written from slot `start` on. -/
def Recent (f : ℕ → α) (n start : ℕ) (l : List α) : Prop :=
  ∀ i, (h : i < l.length) → l.length ≤ i + n → f ((start + i) % n) = l[i]

theorem Holds.recent (h : Holds f n s l) : Recent f n s l := fun i hi _ => h i hi

theorem Recent.push (h : Recent f n s l) :
    Recent (Function.update f ((s + l.length) % n) a) n s (l ++ [a]) := by
  intro i hi hlast
  simp only [List.length_append, List.length_singleton] at hi hlast
  rcases Nat.lt_or_ge i l.length with hlt | hge
  · rw [Function.update_of_ne, h i hlt (by omega), List.getElem_append_left hlt]
    intro e
    have hshift : s + l.length = s + i + (l.length - i) := by omega
    rw [hshift, ← Nat.add_zero (s + i), Nat.add_zero (s + i + 0)] at e
    have := add_mod_inj (by omega) (by omega) e
    omega
  · have hi : i = l.length := by omega
    subst hi
    simp

/-- Between the first slot and the last one written stands a final part of the sequence. -/
theorem Recent.contents (hn : 0 < n) (h : Recent f n s l) :
    contents f n s (l.length % n) = l.drop (n * (l.length / n)) := by
  have hsum := Nat.mod_add_div l.length n
  refine List.ext_getElem (by simp [Circular.contents]; omega) fun i h₁ h₂ => ?_
  have hi : i < l.length % n := by simpa [Circular.contents] using h₁
  rw [List.getElem_drop]
  have hmod := Nat.mod_lt l.length hn
  rw [← h (n * (l.length / n) + i) (by omega) (by omega)]
  simp only [Circular.contents, List.getElem_map, List.getElem_range]
  rw [← Nat.add_assoc, Nat.add_right_comm, Nat.add_mul_mod_self_left]

end Circular
