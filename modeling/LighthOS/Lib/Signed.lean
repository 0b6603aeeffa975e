/-
# Signed machine integers

`int` and `long` are integers that wrap around at 32 and at 64 bits.  A value in range is its
own wrap-around (`i32_eq_self`, `i64_eq_self`), a wrap-around is in range (`i32_range`), and it
depends on the value modulo the width only (`i64_modEq`, `i64_congr`).
-/

import Mathlib.Data.Int.ModEq
import Mathlib.Tactic.Common

namespace LighthOS

/-- `(int)x`. -/
def i32 (x : ℤ) : ℤ := x.bmod (2 ^ 32)

/-- `(long)x`. -/
def i64 (x : ℤ) : ℤ := x.bmod (2 ^ 64)

theorem i32_eq_self {x : ℤ} (hlo : -2 ^ 31 ≤ x) (hhi : x < 2 ^ 31) : i32 x = x := by
  unfold i32
  rw [Int.bmod_eq_of_le_mul_two] <;> omega

theorem i32_of_lt {n : ℕ} (h : n < 2 ^ 31) : i32 n = n := i32_eq_self (by omega) (by omega)

theorem i32_range (x : ℤ) : -2 ^ 31 ≤ i32 x ∧ i32 x < 2 ^ 31 := by
  have hlo := Int.le_bmod (x := x) (m := 2 ^ 32) (by decide)
  have hhi := Int.bmod_lt (x := x) (m := 2 ^ 32) (by decide)
  unfold i32
  omega

/-- A sum that is too large for `int` comes out negative. -/
theorem i32_of_overflow {x : ℤ} (hlo : 2 ^ 31 ≤ x) (hhi : x < 2 ^ 32) : i32 x = x - 2 ^ 32 := by
  unfold i32
  rw [← Int.sub_bmod_right, Int.bmod_eq_of_le_mul_two] <;> omega

theorem i64_eq_self {x : ℤ} (hlo : -2 ^ 63 ≤ x) (hhi : x < 2 ^ 63) : i64 x = x := by
  unfold i64
  rw [Int.bmod_eq_of_le_mul_two] <;> omega

theorem i64_modEq (x : ℤ) : i64 x ≡ x [ZMOD 2 ^ 64] := Int.bmod_emod

theorem i64_congr {x y : ℤ} (h : x ≡ y [ZMOD 2 ^ 64]) : i64 x = i64 y := by
  unfold i64
  rw [← Int.emod_bmod, ← Int.emod_bmod y]
  exact congrArg (Int.bmod · _) h

end LighthOS
