import Mathlib.Data.Nat.ChineseRemainder
import Mathlib.FieldTheory.Finite.Basic
import Mathlib.NumberTheory.LucasLehmer

/-! Exponents that undo each other modulo a product of primes, as those of an RSA key do. -/

namespace AllInOneBackup.Data

/-- The power by `e` is undone by the power by `d`. -/
def Undone (e d m : ℕ) : Prop := ∀ n, (n ^ e) ^ d ≡ n [MOD m]

namespace Undone

variable {e d m m' p : ℕ}

/-- Modulo a product of coprime numbers it is enough modulo each of them. -/
theorem mul (h : Undone e d m) (h' : Undone e d m') (hcoprime : m.Coprime m') :
    Undone e d (m * m') := by
  intro n
  exact (Nat.modEq_and_modEq_iff_modEq_mul hcoprime).mp ⟨h n, h' n⟩

theorem emod_eq (h : Undone e d m) {n : ℕ} (hn : n < m) : (n ^ e) ^ d % m = n := by
  have hmod := h n
  rwa [Nat.ModEq, Nat.mod_eq_of_lt hn] at hmod

/-- Modulo a prime, from Fermat's little theorem. -/
theorem of_prime (hp : p.Prime) (hed : e * d ≡ 1 [MOD p - 1]) (hpos : 0 < e * d) :
    Undone e d p := by
  intro n
  have : Fact p.Prime := ⟨hp⟩
  obtain ⟨k, hk⟩ : ∃ k, e * d = (p - 1) * k + 1 := by
    obtain ⟨k, hk⟩ := (Nat.modEq_iff_dvd' hpos).mp hed.symm
    exact ⟨k, by omega⟩
  rw [← ZMod.natCast_eq_natCast_iff, ← pow_mul, hk]
  push_cast
  rw [pow_add, pow_mul, pow_one]
  rcases eq_or_ne (n : ZMod p) 0 with hzero | hne
  · rw [hzero, mul_zero]
  · rw [ZMod.pow_card_sub_one_eq_one hne, one_pow, one_mul]

/-- Modulo a Mersenne prime. -/
theorem of_mersenne (hp : 1 < p) (htest : LucasLehmer.LucasLehmerTest p)
    (hed : e * d ≡ 1 [MOD 2 ^ p - 2]) (hpos : 0 < e * d) : Undone e d (2 ^ p - 1) := by
  refine of_prime (lucas_lehmer_sufficiency p hp htest) ?_ hpos
  rwa [Nat.sub_sub]

end Undone

end AllInOneBackup.Data
