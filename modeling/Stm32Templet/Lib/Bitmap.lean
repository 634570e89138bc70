import Mathlib.Data.Nat.Basic
import Mathlib.Data.Set.Insert
import Mathlib.Logic.Function.Basic
import Mathlib.Order.Bounds.Defs
import Mathlib.Tactic.Cases

/-! # Two-level bitmaps

A set of numbers below `w * w` is kept in `w` words of `w` bits; bit `y` of a further word, the
group word, says whether word `y` is different from zero.  Number `p` is bit `p % w` of word
`p / w`.

With a function that finds the lowest bit of a word (`LowestBit`) the least element is found in
two steps, without a search (`Table.least`).  That works as long as the group word is right
(`Table.Ok`), which insertion and removal preserve.

`Table.Is t S` says that `t` is a right bitmap of the set `S`: for the users of a bitmap it is all
they need. -/

namespace Bitmap

/-- The words of a bitmap and their group word. -/
structure Table (w : ℕ) where
  grp : BitVec w
  tbl : ℕ → BitVec w

variable {w : ℕ}

namespace Table

/-- `p` is in the set. -/
def Has (t : Table w) (p : ℕ) : Prop := (t.tbl (p / w)).getLsbD (p % w) = true

instance (t : Table w) (p : ℕ) : Decidable (t.Has p) := inferInstanceAs (Decidable (_ = true))

def empty : Table w := ⟨0, fun _ => 0⟩

/-- Bit `x` of word `y` is set. -/
def set (t : Table w) (y x : ℕ) : Table w where
  grp := t.grp ||| BitVec.twoPow w y
  tbl := Function.update t.tbl y (t.tbl y ||| BitVec.twoPow w x)

/-- Bit `x` of word `y` is cleared, and the bit of the group if the word is zero then. -/
def clear (t : Table w) (y x : ℕ) : Table w where
  grp :=
    if t.tbl y &&& ~~~BitVec.twoPow w x = 0 then t.grp &&& ~~~BitVec.twoPow w y else t.grp
  tbl := Function.update t.tbl y (t.tbl y &&& ~~~BitVec.twoPow w x)

/-- The group word says which words are not zero. -/
def Ok (t : Table w) : Prop := ∀ y < w, t.grp.getLsbD y = true ↔ t.tbl y ≠ 0

end Table

/-! ### Bits of a word -/

section Word

variable {v : BitVec w} {i j : ℕ}

theorem exists_bit (h : v ≠ 0) : ∃ i < w, v.getLsbD i = true := by
  by_contra hn
  refine h (BitVec.eq_of_getLsbD_eq fun i hi => ?_)
  have hi' : ¬ v.getLsbD i = true := fun hb => hn ⟨i, hi, hb⟩
  simpa using hi'

theorem bit_or_twoPow (hj : j < w) :
    (v ||| BitVec.twoPow w i).getLsbD j = true ↔ j = i ∨ v.getLsbD j = true := by
  rw [BitVec.getLsbD_or, BitVec.getLsbD_twoPow, Bool.or_eq_true, Bool.and_eq_true,
    decide_eq_true_eq, decide_eq_true_eq]
  constructor
  · rintro (h | ⟨_, h⟩)
    · exact Or.inr h
    · exact Or.inl h.symm
  · rintro (rfl | h)
    · exact Or.inr ⟨hj, rfl⟩
    · exact Or.inl h

theorem bit_and_not_twoPow (hj : j < w) :
    (v &&& ~~~BitVec.twoPow w i).getLsbD j = true ↔ j ≠ i ∧ v.getLsbD j = true := by
  rw [BitVec.getLsbD_and, BitVec.getLsbD_not, BitVec.getLsbD_twoPow, Bool.and_eq_true,
    Bool.and_eq_true, Bool.not_eq_true', Bool.and_eq_false_iff, decide_eq_true_eq,
    decide_eq_false_iff_not, decide_eq_false_iff_not]
  constructor
  · rintro ⟨hv, _, h⟩
    exact ⟨fun he => h.elim (fun h => h (he ▸ hj)) fun h => h he.symm, hv⟩
  · rintro ⟨hne, hv⟩
    exact ⟨hv, hj, Or.inr fun he => hne he.symm⟩

theorem ne_zero_of_bit (h : v.getLsbD i = true) : v ≠ 0 := by
  rintro rfl
  simp at h

end Word

/-! ### Insertion and removal -/

namespace Table

variable {t : Table w} {p q : ℕ}

@[simp] theorem not_has_empty : ¬ (empty : Table w).Has p := by simp [Has, empty]

theorem ok_empty : (empty : Table w).Ok := by
  intro y _
  simp [empty]

theorem div_mod_inj (hdiv : p / w = q / w) (hmod : p % w = q % w) : p = q := by
  rw [← Nat.div_add_mod p w, hdiv, hmod, Nat.div_add_mod]

theorem has_set (hw : 0 < w) : (t.set (q / w) (q % w)).Has p ↔ p = q ∨ t.Has p := by
  unfold Has set
  by_cases hdiv : p / w = q / w
  · simp only [hdiv, Function.update_self, bit_or_twoPow (Nat.mod_lt p hw)]
    refine or_congr_left ⟨fun hmod => div_mod_inj hdiv hmod, ?_⟩
    rintro rfl
    rfl
  · simp only [Function.update_of_ne hdiv]
    refine (or_iff_right ?_).symm
    rintro rfl
    exact hdiv rfl

theorem has_clear (hw : 0 < w) : (t.clear (q / w) (q % w)).Has p ↔ p ≠ q ∧ t.Has p := by
  unfold Has clear
  by_cases hdiv : p / w = q / w
  · simp only [hdiv, Function.update_self, bit_and_not_twoPow (Nat.mod_lt p hw)]
    refine and_congr_left fun _ => not_congr ⟨fun hmod => div_mod_inj hdiv hmod, ?_⟩
    rintro rfl
    rfl
  · simp only [Function.update_of_ne hdiv]
    refine (and_iff_right ?_).symm
    rintro rfl
    exact hdiv rfl

theorem Ok.set (h : t.Ok) {y x : ℕ} (hx : x < w) : (t.set y x).Ok := by
  intro z hz
  unfold Table.set
  simp only [bit_or_twoPow hz]
  by_cases hzy : z = y
  · subst hzy
    simp only [Function.update_self, true_or, true_iff]
    exact ne_zero_of_bit ((bit_or_twoPow hx).mpr (Or.inl rfl))
  · simp only [Function.update_of_ne hzy, hzy, false_or]
    exact h z hz

theorem Ok.clear (h : t.Ok) (y x : ℕ) : (t.clear y x).Ok := by
  intro z hz
  unfold Table.clear
  by_cases hzy : z = y
  · subst hzy
    simp only [Function.update_self]
    split
    · rename_i h0
      simp [h0]
    · rename_i h0
      refine iff_of_true ((h z hz).mpr fun hv => h0 ?_) h0
      rw [hv]
      exact BitVec.zero_and
  · simp only [Function.update_of_ne hzy]
    split
    · rw [bit_and_not_twoPow hz, and_iff_right hzy]
      exact h z hz
    · exact h z hz

end Table

/-! ### The least element -/

/-- `f` finds the lowest bit that is set. -/
def LowestBit (f : BitVec w → ℕ) : Prop :=
  ∀ v, v ≠ 0 → f v < w ∧ v.getLsbD (f v) = true ∧ ∀ i < f v, v.getLsbD i = false

/-- The least element: the lowest word that is not zero, and its lowest bit. -/
def Table.least (t : Table w) (f : BitVec w → ℕ) : ℕ := f t.grp * w + f (t.tbl (f t.grp))

namespace Table

variable {t : Table w} {f : BitVec w → ℕ} {p : ℕ}

theorem Ok.grp_ne_zero (h : t.Ok) (hp : p < w * w) (hhas : t.Has p) : t.grp ≠ 0 := by
  have hy : p / w < w := Nat.div_lt_of_lt_mul hp
  exact ne_zero_of_bit ((h _ hy).mpr (ne_zero_of_bit hhas))

theorem Ok.exists_has (h : t.Ok) (hgrp : t.grp ≠ 0) : ∃ p < w * w, t.Has p := by
  obtain ⟨y, hy, hbit⟩ := exists_bit hgrp
  obtain ⟨x, hx, hbit⟩ := exists_bit ((h y hy).mp hbit)
  have hw : 0 < w := by omega
  refine ⟨y * w + x, ?_, ?_⟩
  · calc y * w + x < y * w + w := by omega
      _ = (y + 1) * w := by rw [Nat.add_mul, Nat.one_mul]
      _ ≤ w * w := Nat.mul_le_mul_right w hy
  · unfold Has
    rwa [Nat.mul_comm, Nat.mul_add_div hw, Nat.div_eq_of_lt hx, Nat.add_zero, Nat.mul_add_mod,
      Nat.mod_eq_of_lt hx]

theorem Ok.least_spec (h : t.Ok) (hf : LowestBit f) (hp : p < w * w) (hhas : t.Has p) :
    t.least f < w * w ∧ t.Has (t.least f) ∧ t.least f ≤ p := by
  obtain ⟨hy, hybit, hymin⟩ := hf t.grp (h.grp_ne_zero hp hhas)
  obtain ⟨hx, hxbit, hxmin⟩ := hf (t.tbl (f t.grp)) ((h _ hy).mp hybit)
  have hw : 0 < w := by omega
  have hdiv : t.least f / w = f t.grp := by
    unfold least
    rw [Nat.mul_comm, Nat.mul_add_div hw, Nat.div_eq_of_lt hx, Nat.add_zero]
  have hmod : t.least f % w = f (t.tbl (f t.grp)) := by
    unfold least
    rw [Nat.mul_comm, Nat.mul_add_mod, Nat.mod_eq_of_lt hx]
  -- no lower word has an element, and no lower bit of this word is one
  have hyle : f t.grp ≤ p / w := by
    by_contra hlt
    have hbit := hymin (p / w) (by omega)
    have hy' : p / w < w := by omega
    rw [(h _ hy').mpr (ne_zero_of_bit hhas)] at hbit
    cases hbit
  refine ⟨?_, ?_, ?_⟩
  · rw [← Nat.div_lt_iff_lt_mul hw, hdiv]
    exact hy
  · unfold Has
    rwa [hdiv, hmod]
  · rcases Nat.lt_or_eq_of_le hyle with hlt | heq
    · exact Nat.le_of_lt (Nat.lt_of_div_lt_div (hdiv ▸ hlt))
    · have hxle : f (t.tbl (f t.grp)) ≤ p % w := by
        by_contra hlt
        have hbit := hxmin (p % w) (by omega)
        rw [heq, show (t.tbl (p / w)).getLsbD (p % w) = true from hhas] at hbit
        cases hbit
      calc t.least f = w * (p / w) + f (t.tbl (f t.grp)) := by unfold least; rw [heq, Nat.mul_comm]
        _ ≤ w * (p / w) + p % w := by omega
        _ = p := Nat.div_add_mod p w

end Table

/-! ### Bitmaps of sets -/

/-- The bitmap is right, and it is that of `S`. -/
def Table.Is (t : Table w) (S : Set ℕ) : Prop := t.Ok ∧ ∀ p < w * w, t.Has p ↔ p ∈ S

namespace Table

variable {t : Table w} {S : Set ℕ} {f : BitVec w → ℕ} {q : ℕ}

theorem is_empty : (empty : Table w).Is ∅ :=
  ⟨ok_empty, fun _ _ => iff_of_false not_has_empty (Set.notMem_empty _)⟩

theorem Is.congr (h : t.Is S) {S' : Set ℕ} (hS : ∀ p, p ∈ S ↔ p ∈ S') : t.Is S' :=
  ⟨h.1, fun p hp => (h.2 p hp).trans (hS p)⟩

theorem Is.insert (h : t.Is S) (hw : 0 < w) (q : ℕ) : (t.set (q / w) (q % w)).Is (insert q S) := by
  refine ⟨h.1.set (Nat.mod_lt q hw), fun p hp => ?_⟩
  rw [has_set hw, h.2 p hp, Set.mem_insert_iff]

theorem Is.erase (h : t.Is S) (hw : 0 < w) (q : ℕ) : (t.clear (q / w) (q % w)).Is (S \ {q}) := by
  refine ⟨h.1.clear _ _, fun p hp => ?_⟩
  rw [has_clear hw, h.2 p hp, and_comm]
  exact Iff.rfl

theorem Is.grp_eq_zero (h : t.Is S) (hS : ∀ p ∈ S, p < w * w) : t.grp = 0 ↔ S = ∅ := by
  constructor
  · intro hgrp
    refine Set.eq_empty_iff_forall_notMem.mpr fun p hp => ?_
    exact h.1.grp_ne_zero (hS p hp) ((h.2 p (hS p hp)).mpr hp) hgrp
  · rintro rfl
    by_contra hgrp
    obtain ⟨p, hp, hhas⟩ := h.1.exists_has hgrp
    exact (h.2 p hp).mp hhas

theorem Is.isLeast (h : t.Is S) (hf : LowestBit f) (hS : ∀ p ∈ S, p < w * w) (hne : S.Nonempty) :
    IsLeast S (t.least f) := by
  have hleast : ∀ p ∈ S, t.least f < w * w ∧ t.Has (t.least f) ∧ t.least f ≤ p := fun p hp =>
    h.1.least_spec hf (hS p hp) ((h.2 p (hS p hp)).mpr hp)
  obtain ⟨p, hp⟩ := hne
  obtain ⟨hlt, hhas, _⟩ := hleast p hp
  exact ⟨(h.2 _ hlt).mp hhas, fun p hp => (hleast p hp).2.2⟩

end Table

end Bitmap
