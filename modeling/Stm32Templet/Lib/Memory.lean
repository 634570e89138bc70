import Mathlib.Data.List.Basic
import Mathlib.Logic.Function.Basic
import Mathlib.Tactic.Ring

/-! # Byte-addressed memory

A memory is a function from addresses to bytes.  `load n a` reads `n` bytes from address `a`
on as a little-endian number, `store n a v` writes one, `bytes a n` is the sequence of `n`
bytes from `a` on.  The lemmas say what a store leaves alone, what a load depends on and that
a load gives back what was stored.

A loop that fills an array slot by slot (`Fills`) leaves the rest of memory alone, and what it
writes to a slot is what its iteration for this slot has written. -/

namespace Memory

/-- Addresses to bytes. -/
abbrev Mem : Type := ℕ → UInt8

/-- The `n` bytes from `a` on as a number, the first one least significant. -/
def load (m : Mem) : ℕ → ℕ → ℕ
  | 0, _ => 0
  | n + 1, a => (m a).toNat + 256 * load m n (a + 1)

/-- The memory after writing the number `v` to the `n` bytes from `a` on. -/
def store (m : Mem) : ℕ → ℕ → ℕ → Mem
  | 0, _, _ => m
  | n + 1, a, v => store (Function.update m a (UInt8.ofNat v)) n (a + 1) (v / 256)

/-- The `n` bytes from `a` on. -/
def bytes (m : Mem) (a n : ℕ) : List UInt8 := (List.range n).map fun i => m (a + i)

variable {m m' : Mem}

@[simp] theorem length_bytes (m : Mem) (a n : ℕ) : (bytes m a n).length = n := by simp [bytes]

theorem getElem_bytes {a n i : ℕ} (h : i < (bytes m a n).length) :
    (bytes m a n)[i] = m (a + i) := by simp [bytes]

theorem bytes_congr {a n : ℕ} (h : ∀ i < n, m (a + i) = m' (a + i)) :
    bytes m a n = bytes m' a n :=
  List.map_congr_left fun i hi => h i (List.mem_range.mp hi)

theorem bytes_eq {a : ℕ} {l : List UInt8} (h : ∀ i, (hi : i < l.length) → m (a + i) = l[i]) :
    bytes m a l.length = l :=
  List.ext_getElem (length_bytes m a _) fun i h₁ h₂ => (getElem_bytes h₁).trans (h i h₂)

/-! ### Loads -/

theorem load_congr (n a : ℕ) (h : ∀ i < n, m (a + i) = m' (a + i)) :
    load m n a = load m' n a := by
  induction n generalizing a with
  | zero => rfl
  | succ n ih =>
      have h0 := h 0 (Nat.succ_pos n)
      have hrest := ih (a + 1) fun i hi => by
        have := h (i + 1) (by omega)
        rwa [show a + 1 + i = a + (i + 1) by omega]
      rw [Nat.add_zero] at h0
      rw [load, load, h0, hrest]

theorem load_one (m : Mem) (a : ℕ) : load m 1 a = (m a).toNat := by
  rw [load, load, Nat.mul_zero, Nat.add_zero]

/-! ### Stores -/

theorem store_of_outside (n a v : ℕ) (m : Mem) {x : ℕ} (h : x < a ∨ a + n ≤ x) :
    store m n a v x = m x := by
  induction n generalizing a v m with
  | zero => rfl
  | succ n ih => rw [store, ih (a + 1) (v / 256) _ (by omega), Function.update_of_ne (by omega)]

/-- What was stored is loaded, cut to the size of the location. -/
theorem load_store (n a v : ℕ) (m : Mem) : load (store m n a v) n a = v % 256 ^ n := by
  induction n generalizing a v m with
  | zero => exact (Nat.mod_one v).symm
  | succ n ih =>
      rw [load, store, store_of_outside n (a + 1) (v / 256) _ (Or.inl (Nat.lt_succ_self a)),
        ih (a + 1) (v / 256), Function.update_self, Nat.pow_succ', Nat.mod_mul]
      rfl

theorem load_store_of_lt {n a v : ℕ} (m : Mem) (h : v < 256 ^ n) :
    load (store m n a v) n a = v := by
  rw [load_store, Nat.mod_eq_of_lt h]

theorem load_store_of_disjoint {n a k b : ℕ} (m : Mem) (v : ℕ) (h : a + n ≤ b ∨ b + k ≤ a) :
    load (store m k b v) n a = load m n a :=
  load_congr n a fun i hi => store_of_outside k b v m (by omega)

/-! ### Loops over an array -/

/-- The `n` bytes from `a` on and the `k` bytes from `b` on do not overlap. -/
def Apart (a n b k : ℕ) : Prop := a + n ≤ b ∨ b + k ≤ a

instance (a n b k : ℕ) : Decidable (Apart a n b k) := inferInstanceAs (Decidable (_ ∨ _))

/-- Iteration `i` of the loop writes to slot `i` only, the slots having `k` bytes each and
starting at `a`. -/
def Fills (a k : ℕ) (body : Mem → ℕ → Mem) : Prop :=
  ∀ m i x, x < a + k * i ∨ a + k * (i + 1) ≤ x → body m i x = m x

variable {a k : ℕ} {body : Mem → ℕ → Mem}

theorem Fills.outside (h : Fills a k body) (n : ℕ) {x : ℕ} (hx : x < a ∨ a + k * n ≤ x) :
    (List.range n).foldl body m x = m x := by
  induction n with
  | zero => rfl
  | succ n ih =>
      rw [Nat.mul_succ] at hx
      rw [List.range_succ, List.foldl_concat, h _ n x (by rw [Nat.mul_succ]; omega),
        ih (by omega)]

/-- The loop leaves a slot as its iteration has left it. -/
theorem Fills.slot (h : Fills a k body) {n i x : ℕ} (hi : i < n) (hx : x < a + k * (i + 1)) :
    (List.range n).foldl body m x = body ((List.range i).foldl body m) i x := by
  induction n with
  | zero => cases hi
  | succ n ih =>
      rw [List.range_succ, List.foldl_concat]
      rcases Nat.lt_succ_iff_lt_or_eq.mp hi with hlt | rfl
      · have hle : k * (i + 1) ≤ k * n := Nat.mul_le_mul_left k hlt
        rw [h _ n x (by omega), ih hlt]
      · rfl

end Memory
