import Mathlib.Algebra.BigOperators.Group.List.Basic
import Mathlib.Data.Int.Notation
import Mathlib.Tactic.Ring

/-! # Formatted output

`sprintf` of the C library for formats whose conversions are all `%d`, and how long its output
can be. -/

namespace Printf

/-- `%d`: the decimal digits, behind a minus sign if there is one. -/
def decimal (i : ℤ) : List Char :=
  if i < 0 then '-' :: Nat.toDigits 10 i.natAbs else Nat.toDigits 10 i.natAbs

/-- The characters that `sprintf` writes in front of the terminating zero. -/
def sprintf : List Char → List ℤ → List Char
  | '%' :: 'd' :: fmt, i :: args => decimal i ++ sprintf fmt args
  | c :: fmt, args => c :: sprintf fmt args
  | [], _ => []

/-- The bytes of a text. -/
def ascii (text : List Char) : List UInt8 := text.map fun c => UInt8.ofNat c.toNat

@[simp] theorem length_ascii (text : List Char) : (ascii text).length = text.length :=
  List.length_map _

variable {i : ℤ} {k : ℕ}

theorem length_decimal_le (hk : 0 < k) (h : i.natAbs < 10 ^ k) : (decimal i).length ≤ k + 1 := by
  have hdigits := (Nat.length_toDigits_le_iff (by decide) hk).mpr h
  unfold decimal
  split
  · exact Nat.succ_le_succ hdigits
  · exact Nat.le_succ_of_le hdigits

theorem length_decimal_natCast_le {n : ℕ} (hk : 0 < k) (h : n < 10 ^ k) :
    (decimal n).length ≤ k := by
  unfold decimal
  rw [if_neg (by omega), Int.natAbs_natCast]
  exact (Nat.length_toDigits_le_iff (by decide) hk).mpr h

/-- The output is as long as the format, apart from the conversions. -/
theorem length_sprintf_le (fmt : List Char) (args : List ℤ) :
    (sprintf fmt args).length ≤ fmt.length + (args.map fun i => (decimal i).length).sum := by
  induction fmt, args using sprintf.induct with
  | case1 fmt i args ih =>
      rw [sprintf, List.length_append, List.length_cons, List.length_cons, List.map_cons,
        List.sum_cons]
      omega
  | case2 c fmt args hconv ih =>
      rw [sprintf, List.length_cons, List.length_cons]
      · omega
      · exact hconv
  | case3 args => exact Nat.zero_le _

/-- The least number of 32 bits takes eleven characters. -/
example : sprintf "OSTime:%d\r\n".toList [-2147483648] = "OSTime:-2147483648\r\n".toList := by
  decide

end Printf
