import Mathlib.Algebra.Order.Ring.Nat
import Mathlib.Data.Set.Finite.Basic
import Mathlib.Data.Nat.Find
import Mathlib.Logic.Function.Iterate

/-! Brent's schedule of comparisons in the orbit of a function. In round `j` one value is saved and
compared with `2 ^ j` values in a row, of which the first is `2 ^ j + 1` steps away. Where the orbit
repeats, some comparison finds the same value. -/

namespace AllInOneBackup.BrentSchedule

/-- The value that round `j` saves, and the `i`-th one that it is compared with, as numbers of
steps. -/
def savedIndex (j : ℕ) : ℕ := 2 * 2 ^ j - 2

def comparedIndex (j i : ℕ) : ℕ := 3 * 2 ^ j - 1 + i

theorem one_le_two_pow (j : ℕ) : 1 ≤ 2 ^ j := Nat.one_le_two_pow

/-- A round begins where the one before it ended. -/
theorem savedIndex_succ (j : ℕ) : savedIndex (j + 1) = savedIndex j + 2 ^ j + 2 ^ j := by
  have h := one_le_two_pow j
  rw [savedIndex, savedIndex, pow_succ]
  omega

theorem comparedIndex_eq (j i : ℕ) : comparedIndex j i = savedIndex j + 2 ^ j + (i + 1) := by
  have h := one_le_two_pow j
  rw [savedIndex, comparedIndex]
  omega

/-! ### The first comparison of a kind -/

/-- Comparison `i` of round `j` is the first of which `P` holds. -/
structure First (P : ℕ → ℕ → Prop) (j i : ℕ) : Prop where
  lt : i < 2 ^ j
  holds : P j i
  rounds : ∀ j' < j, ∀ i' < 2 ^ j', ¬P j' i'
  round : ∀ i' < i, ¬P j i'

variable {P : ℕ → ℕ → Prop}

theorem exists_first (h : ∃ j, ∃ i < 2 ^ j, P j i) : ∃ j i, First P j i := by
  classical
  have hround := Nat.find_spec h
  obtain ⟨hlt, hholds⟩ := Nat.find_spec hround
  refine ⟨Nat.find h, Nat.find hround, hlt, hholds, fun j' hj' i' hi' hP => ?_, fun i' hi' hP => ?_⟩
  · exact Nat.find_min h hj' ⟨i', hi', hP⟩
  · exact Nat.find_min hround hi' ⟨hi'.trans hlt, hP⟩

theorem First.unique {j i j' i' : ℕ} (h : First P j i) (h' : First P j' i') : j = j' ∧ i = i' := by
  obtain rfl : j = j' := by
    rcases Nat.lt_trichotomy j j' with hlt | heq | hlt
    · exact absurd h.holds (h'.rounds j hlt i h.lt)
    · exact heq
    · exact absurd h'.holds (h.rounds j' hlt i' h'.lt)
  refine ⟨rfl, ?_⟩
  rcases Nat.lt_trichotomy i i' with hlt | heq | hlt
  · exact absurd h.holds (h'.round i hlt)
  · exact heq
  · exact absurd h'.holds (h.round i' hlt)

/-! ### Orbits -/

variable {α : Type*} {f : α → α} {a : α}

/-- From a repetition on, the orbit repeats with its length. -/
theorem iterate_add_mul {m d : ℕ} (h : f^[m] a = f^[m + d] a) {n : ℕ} (hn : m ≤ n) (t : ℕ) :
    f^[n + t * d] a = f^[n] a := by
  have hone : ∀ n, m ≤ n → f^[n + d] a = f^[n] a := by
    intro n hn
    obtain ⟨k, rfl⟩ := Nat.exists_eq_add_of_le' hn
    rw [Nat.add_assoc, Function.iterate_add_apply, ← h, ← Function.iterate_add_apply]
  induction t with
  | zero => rw [Nat.zero_mul, Nat.add_zero]
  | succ t ih => rw [Nat.succ_mul, ← Nat.add_assoc, hone _ (by omega), ih]

/-- An orbit with finitely many values is caught by a comparison. -/
theorem exists_equal (h : (Set.range fun n => f^[n] a).Finite) :
    ∃ j, ∃ i < 2 ^ j, f^[savedIndex j] a = f^[comparedIndex j i] a := by
  obtain ⟨m, d, hd, hrepeat⟩ : ∃ m d, 0 < d ∧ f^[m] a = f^[m + d] a := by
    have hnot : ¬Function.Injective fun n => f^[n] a := fun hinj =>
      Set.infinite_range_of_injective hinj h
    obtain ⟨m, n, heq, hne⟩ := Function.not_injective_iff.mp hnot
    rcases Nat.lt_or_gt_of_ne hne with hlt | hlt
    · exact ⟨m, n - m, by omega, by rw [Nat.add_sub_cancel' hlt.le]; exact heq⟩
    · exact ⟨n, m - n, by omega, by rw [Nat.add_sub_cancel' hlt.le]; exact heq.symm⟩
  -- a round with at least `d` comparisons, that begins behind `m`
  let j := m + d
  have hlarge : m + d < 2 ^ j := Nat.lt_two_pow_self
  have hsaved : m ≤ savedIndex j := by
    rw [savedIndex]
    omega
  let i := d - 1 - 2 ^ j % d
  have hmod := Nat.mod_lt (2 ^ j) hd
  have hi : i < 2 ^ j := by omega
  refine ⟨j, i, hi, ?_⟩
  have hsteps : comparedIndex j i = savedIndex j + (2 ^ j / d + 1) * d := by
    have hdiv := Nat.div_add_mod (2 ^ j) d
    rw [comparedIndex_eq, Nat.succ_mul, Nat.mul_comm (2 ^ j / d)]
    omega
  rw [hsteps, iterate_add_mul hrepeat hsaved]

end AllInOneBackup.BrentSchedule
