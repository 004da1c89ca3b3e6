import Mathlib.Algebra.Ring.Nat
import Mathlib.Data.Nat.Log

/-!
# Rounding up to a power of two
-/

namespace Fiberexec.Support

/-- `std::bit_ceil`: the least power of two that is not less than `n`. -/
def bitCeil (n : ℕ) : ℕ :=
  2 ^ Nat.clog 2 n

theorem le_bitCeil (n : ℕ) : n ≤ bitCeil n :=
  Nat.le_pow_clog Nat.one_lt_two n

theorem bitCeil_le_pow {n k : ℕ} (h : n ≤ 2 ^ k) : bitCeil n ≤ 2 ^ k :=
  Nat.pow_le_pow_right Nat.two_pos (Nat.clog_le_of_le_pow h)

/-- The powers of two from `2 ^ k` on are its multiples, so a rounding that is
none is less. -/
theorem bitCeil_lt_of_mod_ne_zero {n k : ℕ} (h : bitCeil n % 2 ^ k ≠ 0) :
    bitCeil n < 2 ^ k := by
  refine Nat.pow_lt_pow_right Nat.one_lt_two ?_
  by_contra hge
  exact h (Nat.mod_eq_zero_of_dvd (Nat.pow_dvd_pow 2 (not_lt.mp hge)))

end Fiberexec.Support
