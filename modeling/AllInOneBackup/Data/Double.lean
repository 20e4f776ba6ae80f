import Mathlib.Algebra.Order.Ring.Nat
import Mathlib.Data.Nat.Log
import Mathlib.Tactic.Common
import Mathlib.Tactic.Linarith
import Mathlib.Tactic.Ring

/-! Natural numbers as doubles. A number keeps its 53 highest bits and is rounded to the nearest,
half to even; a factor of a product may be a fraction, as rounding does not look at the exponent. -/

namespace AllInOneBackup.Double

/-- A quotient rounded to the nearest, half to even. -/
def divNearest (a b : ℕ) : ℕ :=
  let q := a / b
  let r := a % b
  if 2 * r < b ∨ 2 * r = b ∧ q % 2 = 0 then q else q + 1

/-- The bits that do not fit. -/
def excess (a : ℕ) : ℕ := Nat.log2 a + 1 - 53

/-- `float64(a)`. -/
def round (a : ℕ) : ℕ := divNearest a (2 ^ excess a) * 2 ^ excess a

/-- `int64(float64(a) * x)` for the double `x` that is `m` over `2 ^ 53`. -/
def scale (m a : ℕ) : ℕ := round (round a * m) / 2 ^ 53

example : round (2 ^ 53 + 1) = 2 ^ 53 ∧ round (2 ^ 53 + 3) = 2 ^ 53 + 4 := by decide +kernel

theorem divNearest_le {a b : ℕ} (hb : 0 < b) : 2 * (divNearest a b * b) ≤ 2 * a + b := by
  have hdiv := Nat.div_add_mod' a b
  have hmod := Nat.mod_lt a hb
  rw [divNearest]
  split_ifs with h
  · omega
  · have hhalf : b ≤ 2 * (a % b) := by omega
    have hsucc : (a / b + 1) * b = a / b * b + b := Nat.succ_mul _ _
    omega

/-- Rounding adds at most half of the last bit that is kept. -/
theorem round_le (a : ℕ) : round a * 2 ^ 53 ≤ a * (2 ^ 53 + 1) := by
  by_cases hzero : excess a = 0
  · have hround : round a = a := by
      simp [round, hzero, divNearest, Nat.mod_one]
    rw [hround]
    exact Nat.mul_le_mul_left a (Nat.le_succ _)
  · have hlog : Nat.log2 a = excess a + 52 := by
      unfold excess at hzero ⊢
      omega
    have hpos : a ≠ 0 := by
      rintro rfl
      exact hzero rfl
    have hlow : 2 ^ excess a * 2 ^ 52 ≤ a := by
      rw [← pow_add, ← hlog]
      exact Nat.log2_self_le hpos
    have hnear : 2 * round a ≤ 2 * a + 2 ^ excess a := divNearest_le (Nat.two_pow_pos _)
    calc round a * 2 ^ 53 = 2 * round a * 2 ^ 52 := by ring
      _ ≤ (2 * a + 2 ^ excess a) * 2 ^ 52 := Nat.mul_le_mul_right _ hnear
      _ = a * 2 ^ 53 + 2 ^ excess a * 2 ^ 52 := by ring
      _ ≤ a * 2 ^ 53 + a := Nat.add_le_add_left hlow _
      _ = a * (2 ^ 53 + 1) := (Nat.mul_succ _ _).symm

theorem sq_succ_mul_le {d m : ℕ} (hm : m + 2 ≤ d) : (d + 1) * (d + 1) * m ≤ d * d * d := by
  obtain ⟨k, rfl⟩ := Nat.exists_eq_add_of_le hm
  nlinarith [Nat.zero_le (m * k), Nat.zero_le (k * k), Nat.zero_le (m * m * k)]

/-- Scaled by less than one, a number does not grow. -/
theorem scale_le {m : ℕ} (hm : m + 2 ≤ 2 ^ 53) (a : ℕ) : scale m a ≤ a := by
  have houter := round_le (round a * m)
  have hinner := round_le a
  have hpos : 0 < 2 ^ 53 := Nat.two_pow_pos 53
  rw [scale]
  generalize 2 ^ 53 = d at hm houter hinner hpos ⊢
  have hsquare : round (round a * m) * (d * d) ≤ d * a * (d * d) := by
    calc round (round a * m) * (d * d) = round (round a * m) * d * d := by ring
      _ ≤ round a * m * (d + 1) * d := Nat.mul_le_mul_right d houter
      _ = round a * d * (m * (d + 1)) := by ring
      _ ≤ a * (d + 1) * (m * (d + 1)) := Nat.mul_le_mul_right _ hinner
      _ = a * ((d + 1) * (d + 1) * m) := by ring
      _ ≤ a * (d * d * d) := Nat.mul_le_mul_left a (sq_succ_mul_le hm)
      _ = d * a * (d * d) := by ring
  exact Nat.div_le_of_le_mul (Nat.le_of_mul_le_mul_right hsquare (Nat.mul_pos hpos hpos))

end AllInOneBackup.Double
