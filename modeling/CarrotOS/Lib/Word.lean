import Mathlib.Algebra.Group.Nat.Defs
import Mathlib.Tactic.Common

/-!
# Unsigned machine words

A word of `w` bits is a natural number, reduced modulo `2 ^ w` after each operation that can
leave the range.
-/

namespace Word

def u8 (x : ℕ) : ℕ := x % 2 ^ 8

def u16 (x : ℕ) : ℕ := x % 2 ^ 16

def u32 (x : ℕ) : ℕ := x % 2 ^ 32

def u64 (x : ℕ) : ℕ := x % 2 ^ 64

theorem u32_of_lt {x : ℕ} (h : x < 2 ^ 32) : u32 x = x :=
  Nat.mod_eq_of_lt h

theorem u64_of_lt {x : ℕ} (h : x < 2 ^ 64) : u64 x = x :=
  Nat.mod_eq_of_lt h

end Word
