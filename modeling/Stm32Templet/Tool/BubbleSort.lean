import Mathlib.Data.Int.Notation
import Mathlib.Data.List.Perm.Basic
import Mathlib.Logic.Function.Basic

/-! # The bubble sort

`Tool_BubbleSort` of `User/src/tool.c`.  The array is the memory from `L` on, whatever its
length, so that an access behind the last element is one like any other; `touched` records the
indices accessed.  The `int` counters are integers: `n` is a `u16`, and they stay between `0`
and `n`.

The outer loop is to run while `j` is positive, but tests `j<0`.  The body is therefore never
entered, and the array is sorted afterwards if and only if it was sorted before. -/

namespace Stm32Templet.Tool

/-- The memory at `L`, the flag `ischanged` and the indices accessed so far. -/
structure Sorting where
  L : ℕ → UInt16
  ischanged : Bool
  touched : List ℕ

/-- The body of the inner loop. -/
def exchange (s : Sorting) (i : ℕ) : Sorting :=
  if s.L i > s.L (i + 1) then
    { L := Function.update (Function.update s.L i (s.L (i + 1))) (i + 1) (s.L i)
      ischanged := true
      touched := s.touched ++ [i, i + 1] }
  else { s with touched := s.touched ++ [i, i + 1] }

/-- The body of the outer loop up to the test of `ischanged`. -/
def pass (j : ℤ) (s : Sorting) : Sorting :=
  (List.range j.toNat).foldl exchange { s with ischanged := false }

/-- `for(j=n;j<0;j--)`; `none` if the loop is still running after `fuel` tests. -/
def outer : ℕ → ℤ → Sorting → Option Sorting
  | 0, _, _ => none
  | fuel + 1, j, s =>
      if j < 0 then
        if (pass j s).ischanged then outer fuel (j - 1) (pass j s) else some (pass j s)
      else some s

/-- `Tool_BubbleSort`. -/
def toolBubbleSort (fuel : ℕ) (L : ℕ → UInt16) (n : UInt16) : Option Sorting :=
  outer fuel n.toNat ⟨L, false, []⟩

/-- The first `n` elements at `L`. -/
def elements (L : ℕ → UInt16) (n : UInt16) : List UInt16 :=
  (List.range n.toNat).map L

/-- The sort terminates, accesses `L[0]` to `L[n-1]` only and leaves a nondecreasing
permutation of the elements there. -/
def Sorts (L : ℕ → UInt16) (n : UInt16) : Prop :=
  ∃ fuel s, toolBubbleSort fuel L n = some s ∧ (∀ i ∈ s.touched, i < n.toNat) ∧
    (elements s.L n).Perm (elements L n) ∧ (elements s.L n).Pairwise (· ≤ ·)

theorem pass_neg {j : ℤ} (h : j < 0) (s : Sorting) : pass j s = { s with ischanged := false } := by
  rw [pass, Int.toNat_of_nonpos (Int.le_of_lt h)]
  rfl

/-- The loop accesses nothing, wherever it starts. -/
theorem outer_succ (fuel : ℕ) (j : ℤ) (s : Sorting) :
    outer (fuel + 1) j s =
      some (if j < 0 then { s with ischanged := false } else s) := by
  unfold outer
  by_cases h : j < 0
  · rw [if_pos h, if_pos h, pass_neg h]
    rfl
  · rw [if_neg h, if_neg h]

theorem toolBubbleSort_eq (fuel : ℕ) (L : ℕ → UInt16) (n : UInt16) :
    toolBubbleSort (fuel + 1) L n = some ⟨L, false, []⟩ := by
  rw [toolBubbleSort, outer_succ, if_neg (by omega)]

theorem Sorts.before {L : ℕ → UInt16} {n : UInt16} (h : Sorts L n) :
    (elements L n).Pairwise (· ≤ ·) := by
  obtain ⟨fuel, s, hs, _, _, hsorted⟩ := h
  cases fuel with
  | zero => simp [toolBubbleSort, outer] at hs
  | succ fuel =>
      rw [toolBubbleSort_eq, Option.some.injEq] at hs
      subst hs
      exact hsorted

/-- The elements are sorted afterwards only if they were before. -/
theorem sorts_iff (L : ℕ → UInt16) (n : UInt16) :
    Sorts L n ↔ (elements L n).Pairwise (· ≤ ·) := by
  constructor
  · exact Sorts.before
  · intro h
    exact ⟨1, ⟨L, false, []⟩, toolBubbleSort_eq 0 L n, by simp, List.Perm.refl _, h⟩

/-- Two elements in descending order. -/
theorem descending_left_unsorted : ¬ Sorts (fun i => if i = 0 then 2 else 1) 2 := by
  intro h
  exact absurd h.before (by decide)

end Stm32Templet.Tool
