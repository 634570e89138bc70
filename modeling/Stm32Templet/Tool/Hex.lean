import Stm32Templet.Lib.Memory

/-! # Hexadecimal strings

`Tool_StrToHex` and `Tool_HexToStr` of `User/src/tool.c`.  A `char` is unsigned here, as a `u8`
is, and their arithmetic wraps; `s-=7` and `ddh+7` jump over the characters between `'9'` and
`'A'`.

On a digit the two functions are inverse to each other (`digitVal_digitChar`,
`digitChar_digitVal`), and both loops treat every byte by itself (`toolStrToHex_apply`,
`toolHexToStr_pair`), so they are inverse on buffers of any length (`hex_inverse`). -/

namespace Stm32Templet.Tool

open Memory

/-! ### The functions -/

/-- `toupper`. -/
def toupper (c : UInt8) : UInt8 := if 97 ≤ c ∧ c ≤ 122 then c - 32 else c

/-- The value of a digit. -/
def digitVal (h : UInt8) : UInt8 :=
  let s := toupper h - 0x30
  if s > 9 then s - 7 else s

/-- The digit for a value. -/
def digitChar (v : UInt8) : UInt8 :=
  let dd := 48 + v
  if dd > 57 then dd + 7 else dd

/-- An iteration of `Tool_StrToHex`. -/
def strToHexAt (pbDest pbSrc : ℕ) (m : Mem) (i : ℕ) : Mem :=
  let h1 := m (pbSrc + 2 * i)
  let h2 := m (pbSrc + (2 * i + 1))
  Function.update m (pbDest + i) (digitVal h1 * 16 + digitVal h2)

/-- `Tool_StrToHex`. -/
def toolStrToHex (pbDest pbSrc nLen : ℕ) (m : Mem) : Mem :=
  (List.range nLen).foldl (strToHexAt pbDest pbSrc) m

/-- An iteration of `Tool_HexToStr`. -/
def hexToStrAt (pbDest pbSrc : ℕ) (m : Mem) (i : ℕ) : Mem :=
  let ddh := digitChar (m (pbSrc + i) / 16)
  let ddl := digitChar (m (pbSrc + i) % 16)
  Function.update (Function.update m (pbDest + i * 2) ddh) (pbDest + (i * 2 + 1)) ddl

/-- `Tool_HexToStr`. -/
def toolHexToStr (pbDest pbSrc nLen : ℕ) (m : Mem) : Mem :=
  Function.update ((List.range nLen).foldl (hexToStrAt pbDest pbSrc) m) (pbDest + nLen * 2) 0

/-! ### Digits -/

/-- One of `0`-`9`, `A`-`F`. -/
def IsUpperHexDigit (c : UInt8) : Prop := 48 ≤ c ∧ c ≤ 57 ∨ 65 ≤ c ∧ c ≤ 70

/-- One of `0`-`9`, `A`-`F`, `a`-`f`. -/
def IsHexDigit (c : UInt8) : Prop := IsUpperHexDigit c ∨ 97 ≤ c ∧ c ≤ 102

instance (c : UInt8) : Decidable (IsUpperHexDigit c) := inferInstanceAs (Decidable (_ ∨ _))

instance (c : UInt8) : Decidable (IsHexDigit c) := inferInstanceAs (Decidable (_ ∨ _))

theorem forall_byte {P : UInt8 → Prop} (h : ∀ i < 256, P (UInt8.ofNat i)) (c : UInt8) : P c := by
  have hc := h c.toNat c.toNat_lt
  rwa [UInt8.ofNat_toNat] at hc

/-- The digit for a value is an upper-case digit with this value. -/
theorem digitVal_digitChar {v : UInt8} (h : v < 16) : digitVal (digitChar v) = v :=
  forall_byte (P := fun v => v < 16 → digitVal (digitChar v) = v) (by decide +kernel) v h

theorem isUpperHexDigit_digitChar {v : UInt8} (h : v < 16) : IsUpperHexDigit (digitChar v) :=
  forall_byte (P := fun v => v < 16 → IsUpperHexDigit (digitChar v)) (by decide +kernel) v h

theorem digitVal_lt {c : UInt8} (h : IsHexDigit c) : digitVal c < 16 :=
  forall_byte (P := fun c => IsHexDigit c → digitVal c < 16) (by decide +kernel) c h

/-- The digit for the value of a digit is the same digit in upper case. -/
theorem digitChar_digitVal {c : UInt8} (h : IsHexDigit c) :
    digitChar (digitVal c) = toupper c :=
  forall_byte (P := fun c => IsHexDigit c → digitChar (digitVal c) = toupper c)
    (by decide +kernel) c h

/-! ### Bytes and pairs of digits -/

theorem halves_eq (b : UInt8) : b / 16 * 16 + b % 16 = b := by
  apply UInt8.toNat_inj.mp
  have hb := b.toNat_lt
  simp only [UInt8.toNat_add, UInt8.toNat_mul, UInt8.toNat_div, UInt8.toNat_mod, UInt8.reduceToNat]
  omega

theorem div_lt (b : UInt8) : b / 16 < 16 := by
  apply UInt8.lt_iff_toNat_lt.mpr
  have hb := b.toNat_lt
  simp only [UInt8.toNat_div, UInt8.reduceToNat]
  omega

theorem mod_lt (b : UInt8) : b % 16 < 16 := by
  apply UInt8.lt_iff_toNat_lt.mpr
  simp only [UInt8.toNat_mod, UInt8.reduceToNat]
  omega

theorem pair_div {s1 s2 : UInt8} (h1 : s1 < 16) (h2 : s2 < 16) : (s1 * 16 + s2) / 16 = s1 := by
  apply UInt8.toNat_inj.mp
  have h1' := UInt8.lt_iff_toNat_lt.mp h1
  have h2' := UInt8.lt_iff_toNat_lt.mp h2
  simp only [UInt8.toNat_add, UInt8.toNat_mul, UInt8.toNat_div, UInt8.reduceToNat] at *
  omega

theorem pair_mod {s1 s2 : UInt8} (h1 : s1 < 16) (h2 : s2 < 16) : (s1 * 16 + s2) % 16 = s2 := by
  apply UInt8.toNat_inj.mp
  have h1' := UInt8.lt_iff_toNat_lt.mp h1
  have h2' := UInt8.lt_iff_toNat_lt.mp h2
  simp only [UInt8.toNat_add, UInt8.toNat_mul, UInt8.toNat_mod, UInt8.reduceToNat] at *
  omega

/-! ### The loops -/

variable {m : Mem} {d s n i x : ℕ}

theorem fills_strToHexAt (d s : ℕ) : Fills d 1 (strToHexAt d s) := by
  intro m i x hx
  exact Function.update_of_ne (by omega) _ _

theorem strToHexAt_self (d s : ℕ) (m : Mem) (i : ℕ) : strToHexAt d s m i (d + i) =
    digitVal (m (s + 2 * i)) * 16 + digitVal (m (s + (2 * i + 1))) :=
  Function.update_self _ _ _

theorem fills_hexToStrAt (d s : ℕ) : Fills d 2 (hexToStrAt d s) := by
  intro m i x hx
  unfold hexToStrAt
  rw [Function.update_of_ne (by omega), Function.update_of_ne (by omega)]

theorem hexToStrAt_high (d s : ℕ) (m : Mem) (i : ℕ) :
    hexToStrAt d s m i (d + 2 * i) = digitChar (m (s + i) / 16) := by
  unfold hexToStrAt
  rw [Function.update_of_ne (by omega), Nat.mul_comm 2 i, Function.update_self]

theorem hexToStrAt_low (d s : ℕ) (m : Mem) (i : ℕ) :
    hexToStrAt d s m i (d + (2 * i + 1)) = digitChar (m (s + i) % 16) := by
  unfold hexToStrAt
  rw [Nat.mul_comm 2 i, Function.update_self]

theorem toolStrToHex_apply (hds : Apart d n s (2 * n)) (hi : i < n) :
    toolStrToHex d s n m (d + i) =
      digitVal (m (s + 2 * i)) * 16 + digitVal (m (s + (2 * i + 1))) := by
  have hsrc : ∀ j < 2 * n, (List.range i).foldl (strToHexAt d s) m (s + j) = m (s + j) := by
    intro j hj
    unfold Apart at hds
    exact (fills_strToHexAt d s).outside i (by omega)
  unfold toolStrToHex
  rw [(fills_strToHexAt d s).slot hi (by omega), strToHexAt_self, hsrc _ (by omega),
    hsrc _ (by omega)]

theorem toolHexToStr_outside (hx : x < d ∨ d + (2 * n + 1) ≤ x) :
    toolHexToStr d s n m x = m x := by
  unfold toolHexToStr
  rw [Function.update_of_ne (by omega)]
  exact (fills_hexToStrAt d s).outside n (by omega)

theorem toolHexToStr_end (d s n : ℕ) (m : Mem) : toolHexToStr d s n m (d + 2 * n) = 0 := by
  unfold toolHexToStr
  rw [Nat.mul_comm n 2, Function.update_self]

theorem toolHexToStr_pair (hds : Apart d (2 * n + 1) s n) (hi : i < n) :
    toolHexToStr d s n m (d + 2 * i) = digitChar (m (s + i) / 16) ∧
      toolHexToStr d s n m (d + (2 * i + 1)) = digitChar (m (s + i) % 16) := by
  have hsrc : (List.range i).foldl (hexToStrAt d s) m (s + i) = m (s + i) := by
    unfold Apart at hds
    exact (fills_hexToStrAt d s).outside i (by omega)
  unfold toolHexToStr
  rw [Function.update_of_ne (by omega), Function.update_of_ne (by omega),
    (fills_hexToStrAt d s).slot hi (by omega), (fills_hexToStrAt d s).slot hi (by omega),
    hexToStrAt_high, hexToStrAt_low, hsrc]
  exact ⟨rfl, rfl⟩

/-! ### Whole buffers -/

/-- The characters of a string of pairs, one of a pair at a time. -/
theorem forall_pair {P : ℕ → Prop} (h : ∀ i < n, P (2 * i) ∧ P (2 * i + 1)) :
    ∀ j < 2 * n, P j := by
  intro j hj
  obtain ⟨h₀, h₁⟩ := h (j / 2) (by omega)
  rcases Nat.mod_two_eq_zero_or_one j with hmod | hmod
  · rwa [show 2 * (j / 2) = j by omega] at h₀
  · rwa [show 2 * (j / 2) + 1 = j by omega] at h₁

theorem toolHexToStr_isUpperHexDigit (hds : Apart d (2 * n + 1) s n) :
    ∀ j < 2 * n, IsUpperHexDigit (toolHexToStr d s n m (d + j)) := by
  apply forall_pair
  intro i hi
  obtain ⟨hhigh, hlow⟩ := toolHexToStr_pair (m := m) hds hi
  rw [hhigh, hlow]
  exact ⟨isUpperHexDigit_digitChar (div_lt _), isUpperHexDigit_digitChar (mod_lt _)⟩

/-- What `Tool_HexToStr` has written is read back. -/
theorem toolStrToHex_toolHexToStr {b b' : ℕ} (hsb : Apart s (2 * n + 1) b n)
    (hbs : Apart b' n s (2 * n)) :
    bytes (toolStrToHex b' s n (toolHexToStr s b n m)) b' n = bytes m b n := by
  apply List.map_congr_left
  intro i hi
  have hi := List.mem_range.mp hi
  obtain ⟨hhigh, hlow⟩ := toolHexToStr_pair (m := m) hsb hi
  rw [toolStrToHex_apply hbs hi, hhigh, hlow, digitVal_digitChar (div_lt _),
    digitVal_digitChar (mod_lt _), halves_eq]

/-- A string that was read is written again in upper case. -/
theorem toolHexToStr_toolStrToHex {b : ℕ} (hstr : ∀ c ∈ bytes m s (2 * n), IsHexDigit c)
    (hbs : Apart b n s (2 * n)) (hdb : Apart d (2 * n + 1) b n) :
    bytes (toolHexToStr d b n (toolStrToHex b s n m)) d (2 * n) =
      (bytes m s (2 * n)).map toupper := by
  have hdigit : ∀ j < 2 * n, IsHexDigit (m (s + j)) := fun j hj =>
    hstr _ (List.mem_map_of_mem (List.mem_range.mpr hj))
  have hchar : ∀ j < 2 * n,
      toolHexToStr d b n (toolStrToHex b s n m) (d + j) = toupper (m (s + j)) := by
    apply forall_pair
    intro i hi
    have h₁ := hdigit (2 * i) (by omega)
    have h₂ := hdigit (2 * i + 1) (by omega)
    obtain ⟨hhigh, hlow⟩ := toolHexToStr_pair (m := toolStrToHex b s n m) hdb hi
    rw [hhigh, hlow, toolStrToHex_apply hbs hi, pair_div (digitVal_lt h₁) (digitVal_lt h₂),
      pair_mod (digitVal_lt h₁) (digitVal_lt h₂), digitChar_digitVal h₁, digitChar_digitVal h₂]
    exact ⟨rfl, rfl⟩
  unfold bytes
  rw [List.map_map]
  exact List.map_congr_left fun j hj => hchar j (List.mem_range.mp hj)

/-- Both directions, for buffers of any length: `Tool_HexToStr` writes `2 * n` upper-case
digits, a zero and nothing else, and what it has written is read back; a string of digits that
was read is written again in upper case. -/
theorem hex_inverse (m : Mem) (n : ℕ) :
    (∀ s b, Apart s (2 * n + 1) b n →
      (∀ c ∈ bytes (toolHexToStr s b n m) s (2 * n), IsUpperHexDigit c) ∧
      toolHexToStr s b n m (s + 2 * n) = 0 ∧
      (∀ x, x < s ∨ s + (2 * n + 1) ≤ x → toolHexToStr s b n m x = m x) ∧
      ∀ b', Apart b' n s (2 * n) →
        bytes (toolStrToHex b' s n (toolHexToStr s b n m)) b' n = bytes m b n) ∧
    (∀ s b d, (∀ c ∈ bytes m s (2 * n), IsHexDigit c) → Apart b n s (2 * n) →
      Apart d (2 * n + 1) b n →
      bytes (toolHexToStr d b n (toolStrToHex b s n m)) d (2 * n) =
          (bytes m s (2 * n)).map toupper ∧
        toolHexToStr d b n (toolStrToHex b s n m) (d + 2 * n) = 0) := by
  constructor
  · intro s b hsb
    refine ⟨?_, toolHexToStr_end s b n m, fun x hx => toolHexToStr_outside hx, fun b' hbs => ?_⟩
    · intro c hc
      obtain ⟨j, hj, rfl⟩ := List.mem_map.mp hc
      exact toolHexToStr_isUpperHexDigit hsb j (List.mem_range.mp hj)
    · exact toolStrToHex_toolHexToStr hsb hbs
  · intro s b d hstr hbs hdb
    exact ⟨toolHexToStr_toolStrToHex hstr hbs hdb, toolHexToStr_end d b n _⟩

/-- The string `"0aFf"` at address `100`. -/
def mixedCase : Mem := fun a => ([48, 97, 70, 102] : List UInt8).getD (a - 100) 0

/-- Two bytes: from a string and back, and from the bytes and back. -/
theorem hex_inverse_mixedCase :
    bytes (toolHexToStr 300 200 2 (toolStrToHex 200 100 2 mixedCase)) 300 4 = [48, 65, 70, 70] ∧
      bytes (toolStrToHex 400 300 2 (toolHexToStr 300 101 2 mixedCase)) 400 2 = [97, 70] := by
  obtain ⟨hread, hwrite⟩ := hex_inverse mixedCase 2
  have hstr : ∀ c ∈ bytes mixedCase 100 (2 * 2), IsHexDigit c := by decide +kernel
  refine ⟨?_, ?_⟩
  · rw [(hwrite 100 200 300 hstr (by decide) (by decide)).1]
    decide
  · rw [(hread 300 101 (by decide)).2.2.2 400 (by decide)]
    decide

end Stm32Templet.Tool
