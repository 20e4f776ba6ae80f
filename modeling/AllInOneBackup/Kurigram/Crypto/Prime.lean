import AllInOneBackup.Order.BrentSchedule
import Mathlib.Algebra.BigOperators.Intervals
import Mathlib.Data.Nat.GCD.BigOperators
import Mathlib.Data.Nat.ModEq
import Mathlib.Data.Nat.Prime.Basic
import Mathlib.Tactic.Common

/-! `decompose`: Brent's variant of Pollard's rho. The differences of a batch are multiplied before
the gcd is taken, and where the product tells nothing the batch is walked again, one difference at
a time. What is returned is the gcd of the first difference that is not coprime to `pq`, or a
factor of `pq` that this gcd divides. -/

namespace AllInOneBackup.Kurigram.Prime

open BrentSchedule

section Model

variable (pq c : ℕ)

/-- `(pow(y, 2, pq) + c) % pq`. -/
def next (y : ℕ) : ℕ := (y ^ 2 % pq + c) % pq

/-- `abs(x - y)`. -/
def distance (x y : ℕ) : ℕ := ((x : ℤ) - y).natAbs

/-- The loop over the differences of a batch, on `y` and `q`. -/
def batch (x : ℕ) : ℕ → ℕ × ℕ → ℕ × ℕ
  | 0, v => v
  | n + 1, (y, q) =>
    let y := next pq c y
    batch x n (y, q * distance x y % pq)

/-- What the loops assign, but for `x`, `r` and `k`. -/
structure Vars where
  y : ℕ
  g : ℕ
  q : ℕ
  ys : ℕ

/-- `while k < r and g == 1`; every `while` gives up where it has gone round `bound` times. -/
def batches (m r x : ℕ) : ℕ → ℕ → Vars → Option Vars
  | 0, _, _ => none
  | bound + 1, k, v =>
    if k < r ∧ v.g = 1 then
      let ys := v.y
      let (y, q) := batch pq c x (min m (r - k)) (v.y, v.q)
      batches m r x bound (k + m) { y, g := Nat.gcd q pq, q, ys }
    else some v

/-- `while g == 1`. -/
def rounds (m bound : ℕ) : ℕ → ℕ → ℕ → Vars → Option (ℕ × Vars)
  | 0, _, _, _ => none
  | left + 1, r, x, v =>
    if v.g = 1 then do
      let x := v.y
      let v ← batches pq c m r x bound 0 { v with y := (next pq c)^[r] v.y }
      rounds m bound left (r * 2) x v
    else some (x, v)

/-- `while True`. -/
def backtrack (x : ℕ) : ℕ → ℕ → Option ℕ
  | 0, _ => none
  | bound + 1, ys =>
    let ys := next pq c ys
    let g := Nat.gcd (distance x ys) pq
    if g > 1 then some g else backtrack x bound ys

end Model

/-- With the random numbers `y`, `c` and `m`. -/
def decompose (bound pq y c m : ℕ) : Option ℕ :=
  if pq % 2 = 0 then some 2
  else do
    let (x, v) ← rounds pq c m bound bound 1 0 { y, g := 1, q := 1, ys := 0 }
    if v.g = pq then backtrack pq c x bound v.ys else some v.g

/-! ### One round -/

variable {pq c : ℕ}

theorem batch_spec (x n : ℕ) (y q : ℕ) :
    (batch pq c x n (y, q)).1 = (next pq c)^[n] y ∧
      (batch pq c x n (y, q)).2 ≡
        q * ∏ i ∈ Finset.range n, distance x ((next pq c)^[i + 1] y) [MOD pq] := by
  induction n generalizing y q with
  | zero => exact ⟨rfl, by rw [Finset.prod_range_zero, mul_one]; rfl⟩
  | succ n ih =>
    obtain ⟨hy, hq⟩ := ih (next pq c y) (q * distance x (next pq c y) % pq)
    refine ⟨hy, hq.trans ?_⟩
    rw [Finset.prod_range_succ', mul_comm (∏ i ∈ Finset.range n, _), ← mul_assoc]
    exact (Nat.mod_modEq _ _).mul_right _

/-- The distances of a round, from the saved value and the one before the first comparison. -/
def distances (pq c x y i : ℕ) : ℕ := distance x ((next pq c)^[i + 1] y)

/-- A batch ended with a gcd; no distance before it was anything but coprime. -/
structure Caught (pq r : ℕ) (d : ℕ → ℕ) (value : ℕ → ℕ) (v : Vars) : Prop where
  ne_one : v.g ≠ 1
  batch : ∃ k n, k + n ≤ r ∧ v.ys = value k ∧ (∀ i < k, Nat.gcd (d i) pq = 1) ∧
    v.g = Nat.gcd (∏ i ∈ Finset.range n, d (k + i)) pq

/-- No batch has so far. -/
structure Clear (pq k : ℕ) (d : ℕ → ℕ) (value : ℕ → ℕ) (v : Vars) : Prop where
  g : v.g = 1
  y : v.y = value k
  q : Nat.gcd v.q pq = 1
  distances : ∀ i < k, Nat.gcd (d i) pq = 1

theorem coprime_of_prod {pq n : ℕ} {d : ℕ → ℕ}
    (h : Nat.gcd (∏ i ∈ Finset.range n, d i) pq = 1) : ∀ i < n, Nat.gcd (d i) pq = 1 :=
  fun i hi => Nat.coprime_prod_left_iff.mp h i (Finset.mem_range.mpr hi)

/-- One batch of a round. -/
theorem batch_step {r k m x y : ℕ} {v : Vars} (hk : k < r)
    (h : Clear pq k (distances pq c x y) (fun i => (next pq c)^[i] y) v) :
    let b := batch pq c x (min m (r - k)) (v.y, v.q)
    let v' : Vars := { y := b.1, g := Nat.gcd b.2 pq, q := b.2, ys := v.y }
    Clear pq (min (k + m) r) (distances pq c x y) (fun i => (next pq c)^[i] y) v' ∨
      Caught pq r (distances pq c x y) (fun i => (next pq c)^[i] y) v' := by
  intro b v'
  obtain ⟨hy, hq⟩ := @batch_spec pq c x (min m (r - k)) v.y v.q
  have hdist (i : ℕ) : distance x ((next pq c)^[i + 1] v.y) = distances pq c x y (k + i) := by
    rw [h.y, distances, ← Function.iterate_add_apply, show i + 1 + k = k + i + 1 by omega]
  simp only [hdist] at hq
  have hg : Nat.gcd b.2 pq =
      Nat.gcd (∏ i ∈ Finset.range (min m (r - k)), distances pq c x y (k + i)) pq := by
    rw [hq.gcd_eq]
    exact Nat.Coprime.gcd_mul_left_cancel _ h.q
  by_cases hone : Nat.gcd b.2 pq = 1
  · left
    refine ⟨hone, ?_, hone, fun i hi => ?_⟩
    · change b.1 = _
      rw [hy, h.y, ← Function.iterate_add_apply]
      congr 2
      omega
    · by_cases hik : i < k
      · exact h.distances i hik
      · have hprod := coprime_of_prod (hg.symm.trans hone) (i - k) (by omega)
        rwa [show k + (i - k) = i by omega] at hprod
  · right
    exact ⟨hone, k, min m (r - k), by omega, h.y, h.distances, hg⟩

theorem batches_spec {m r x y bound k : ℕ} {v v' : Vars}
    (h : Clear pq (min k r) (distances pq c x y) (fun i => (next pq c)^[i] y) v ∨
      Caught pq r (distances pq c x y) (fun i => (next pq c)^[i] y) v)
    (hrun : batches pq c m r x bound k v = some v') :
    Clear pq r (distances pq c x y) (fun i => (next pq c)^[i] y) v' ∨
      Caught pq r (distances pq c x y) (fun i => (next pq c)^[i] y) v' := by
  induction bound generalizing k v with
  | zero => exact nomatch hrun
  | succ bound ih =>
    rw [batches] at hrun
    by_cases hgo : k < r ∧ v.g = 1
    · rw [if_pos hgo] at hrun
      obtain hclear | hcaught := h
      · rw [Nat.min_eq_left hgo.1.le] at hclear
        exact ih (batch_step (m := m) hgo.1 hclear) hrun
      · exact absurd hgo.2 hcaught.ne_one
    · rw [if_neg hgo] at hrun
      obtain rfl := Option.some.inj hrun
      obtain hclear | hcaught := h
      · have hend : r ≤ k := by
          by_contra hlt
          exact hgo ⟨by omega, hclear.g⟩
        rw [Nat.min_eq_right hend] at hclear
        exact .inl hclear
      · exact .inr hcaught

/-- A round ends, since `m` is positive. -/
theorem batches_total {m r x bound k : ℕ} (hm : 0 < m) (hbound : r ≤ k + bound) (v : Vars) :
    ∃ v', batches pq c m r x (bound + 1) k v = some v' := by
  induction bound generalizing k v with
  | zero =>
    rw [batches, if_neg (by omega)]
    exact ⟨v, rfl⟩
  | succ bound ih =>
    rw [batches]
    by_cases hgo : k < r ∧ v.g = 1
    · rw [if_pos hgo]
      exact ih (by omega) _
    · rw [if_neg hgo]
      exact ⟨v, rfl⟩

/-! ### All rounds -/

/-- The `n`-th value from `y` on. -/
def value (pq c y n : ℕ) : ℕ := (next pq c)^[n] y

/-- The two values of a comparison agree modulo a divisor of `pq`. -/
def Meets (pq c y j i : ℕ) : Prop :=
  Nat.gcd (distance (value pq c y (savedIndex j)) (value pq c y (comparedIndex j i))) pq ≠ 1

/-- The distances of round `j`. -/
def roundDistance (pq c y j i : ℕ) : ℕ :=
  distance (value pq c y (savedIndex j)) (value pq c y (comparedIndex j i))

/-- Before round `j` nothing was caught. -/
structure Before (pq c y j : ℕ) (v : Vars) : Prop where
  g : v.g = 1
  begins : v.y = value pq c y (savedIndex j)
  q : Nat.gcd v.q pq = 1
  rounds : ∀ j' < j, ∀ i < 2 ^ j', ¬Meets pq c y j' i

/-- In round `j` something was. -/
structure During (pq c y j x : ℕ) (v : Vars) : Prop where
  begins : x = value pq c y (savedIndex j)
  caught : Caught pq (2 ^ j) (roundDistance pq c y j)
    (fun i => value pq c y (savedIndex j + 2 ^ j + i)) v
  rounds : ∀ j' < j, ∀ i < 2 ^ j', ¬Meets pq c y j' i

theorem value_add (y m n : ℕ) : (next pq c)^[n] (value pq c y m) = value pq c y (m + n) := by
  rw [value, value, ← Function.iterate_add_apply, Nat.add_comm]

theorem distances_eq (y j i : ℕ) :
    distances pq c (value pq c y (savedIndex j)) (value pq c y (savedIndex j + 2 ^ j)) i =
      roundDistance pq c y j i := by
  rw [distances, value_add, roundDistance, comparedIndex_eq]

/-- One round. -/
theorem round_spec {m bound j y : ℕ} {v v' : Vars} (h : Before pq c y j v)
    (hrun : batches pq c m (2 ^ j) v.y bound 0 { v with y := (next pq c)^[2 ^ j] v.y } = some v') :
    Before pq c y (j + 1) v' ∨ During pq c y j v.y v' := by
  have hskip : (next pq c)^[2 ^ j] v.y = value pq c y (savedIndex j + 2 ^ j) := by
    rw [h.begins, value_add]
  have hvalues : (fun i => (next pq c)^[i] (value pq c y (savedIndex j + 2 ^ j))) =
      fun i => value pq c y (savedIndex j + 2 ^ j + i) := by
    funext i
    exact value_add y _ i
  have hdistances : distances pq c (value pq c y (savedIndex j))
      (value pq c y (savedIndex j + 2 ^ j)) = roundDistance pq c y j := by
    funext i
    exact distances_eq y j i
  rw [hskip, h.begins] at hrun
  have hstart : Clear pq (min 0 (2 ^ j)) (distances pq c (value pq c y (savedIndex j))
      (value pq c y (savedIndex j + 2 ^ j)))
      (fun i => (next pq c)^[i] (value pq c y (savedIndex j + 2 ^ j)))
      { v with y := value pq c y (savedIndex j + 2 ^ j) } := by
    rw [Nat.zero_min]
    exact ⟨h.g, rfl, h.q, fun i hi => absurd hi (Nat.not_lt_zero i)⟩
  have hspec := batches_spec (.inl hstart) hrun
  rw [hvalues, hdistances] at hspec
  obtain hclear | hcaught := hspec
  · left
    refine ⟨hclear.g, ?_, hclear.q, fun j' hj' i hi => ?_⟩
    · rw [savedIndex_succ]
      exact hclear.y
    · rcases Nat.lt_succ_iff_lt_or_eq.mp hj' with hlt | rfl
      · exact h.rounds j' hlt i hi
      · exact not_not.mpr (hclear.distances i hi)
  · exact .inr ⟨h.begins, hcaught, h.rounds⟩

theorem rounds_spec {m bound left j x y x' : ℕ} {v v' : Vars} (h : Before pq c y j v)
    (hrun : rounds pq c m bound left (2 ^ j) x v = some (x', v')) : ∃ j, During pq c y j x' v' := by
  induction left generalizing j x v with
  | zero => exact nomatch hrun
  | succ left ih =>
    rw [rounds, if_pos h.g] at hrun
    obtain ⟨v₁, hround, hrest⟩ := Option.bind_eq_some_iff.mp hrun
    obtain hbefore | hin := round_spec h hround
    · rw [← pow_succ] at hrest
      exact ih hbefore hrest
    · cases left with
      | zero => exact nomatch hrest
      | succ left =>
        rw [rounds, if_neg hin.caught.ne_one] at hrest
        obtain ⟨rfl, rfl⟩ := Prod.mk.inj (Option.some.inj hrest)
        exact ⟨j, hin⟩

/-- The rounds end where some comparison meets. -/
theorem rounds_total {m bound left j x y J I : ℕ} {v : Vars} (hm : 0 < m)
    (hfirst : First (Meets pq c y) J I) (h : Before pq c y j v) (hj : j ≤ J)
    (hleft : J + 2 ≤ j + left) (hbound : 2 ^ J < bound) :
    ∃ x' v', rounds pq c m bound left (2 ^ j) x v = some (x', v') := by
  induction left generalizing j x v with
  | zero => omega
  | succ left ih =>
    have hr : 2 ^ j ≤ 2 ^ J := Nat.pow_le_pow_right (by decide) hj
    obtain ⟨bound, rfl⟩ := Nat.exists_eq_add_of_lt (Nat.zero_lt_of_lt hbound)
    obtain ⟨v₁, hround⟩ := @batches_total pq c m (2 ^ j) v.y (0 + bound) 0 hm (by omega)
      { v with y := (next pq c)^[2 ^ j] v.y }
    rw [rounds, if_pos h.g]
    change ∃ x' v', (batches pq c m (2 ^ j) v.y (0 + bound + 1) 0 _ >>= fun v =>
      rounds pq c m (0 + bound + 1) left (2 ^ j * 2) _ v) = some (x', v')
    rw [hround]
    change ∃ x' v', rounds pq c m (0 + bound + 1) left (2 ^ j * 2) v.y v₁ = some (x', v')
    obtain hbefore | hin := round_spec h hround
    · have hne : j ≠ J := by
        rintro rfl
        exact hbefore.rounds j (Nat.lt_succ_self j) I hfirst.lt hfirst.holds
      rw [← pow_succ]
      exact ih hbefore (by omega) (by omega)
    · cases left with
      | zero => omega
      | succ left =>
        rw [rounds, if_neg hin.caught.ne_one]
        exact ⟨_, _, rfl⟩

/-! ### The backtracking -/

theorem backtrack_spec {x bound ys g : ℕ} (h : backtrack pq c x bound ys = some g) :
    ∃ i, (∀ i' < i, ¬1 < Nat.gcd (distances pq c x ys i') pq) ∧
      g = Nat.gcd (distances pq c x ys i) pq ∧ 1 < g := by
  induction bound generalizing ys with
  | zero => exact nomatch h
  | succ bound ih =>
    rw [backtrack] at h
    by_cases hfound : 1 < Nat.gcd (distance x (next pq c ys)) pq
    · rw [if_pos hfound] at h
      obtain rfl := Option.some.inj h
      exact ⟨0, fun i' hi' => absurd hi' (Nat.not_lt_zero i'), rfl, hfound⟩
    · rw [if_neg hfound] at h
      obtain ⟨i, hbefore, hg, hone⟩ := ih h
      refine ⟨i + 1, fun i' hi' => ?_, hg, hone⟩
      cases i' with
      | zero => exact hfound
      | succ i' => exact hbefore i' (Nat.lt_of_succ_lt_succ hi')

theorem backtrack_total {x bound ys i : ℕ} (hi : i < bound)
    (h : 1 < Nat.gcd (distances pq c x ys i) pq) : ∃ g, backtrack pq c x bound ys = some g := by
  induction bound generalizing ys i with
  | zero => exact absurd hi (Nat.not_lt_zero i)
  | succ bound ih =>
    rw [backtrack]
    by_cases hfound : 1 < Nat.gcd (distance x (next pq c ys)) pq
    · rw [if_pos hfound]
      exact ⟨_, rfl⟩
    · rw [if_neg hfound]
      cases i with
      | zero => exact absurd h hfound
      | succ i => exact ih (Nat.lt_of_succ_lt_succ hi) h

/-! ### The result -/

/-- The batch that was caught holds the first comparison that meets. -/
theorem exists_first_caught {y j x : ℕ} {v : Vars} (h : During pq c y j x v) :
    ∃ k i, First (Meets pq c y) j i ∧ v.ys = value pq c y (savedIndex j + 2 ^ j + k) ∧ k ≤ i ∧
      Nat.gcd (roundDistance pq c y j i) pq ∣ v.g ∧ v.g ∣ pq := by
  classical
  obtain ⟨k, n, hlen, hys, hbefore, hg⟩ := h.caught.batch
  have hmeets : ∃ i, i < k + n ∧ Meets pq c y j i := by
    by_contra hnone
    apply h.caught.ne_one
    rw [hg]
    apply Nat.Coprime.prod_left
    intro i hi
    by_contra hi'
    exact hnone ⟨k + i, by have := Finset.mem_range.mp hi; omega, hi'⟩
  obtain ⟨hlt, hmeet⟩ := Nat.find_spec hmeets
  have hk : k ≤ Nat.find hmeets := by
    by_contra hlt'
    exact hmeet (hbefore _ (by omega))
  refine ⟨k, Nat.find hmeets, ⟨by omega, hmeet, h.rounds, fun i' hi' hmeet' => ?_⟩, hys, hk, ?_, ?_⟩
  · exact Nat.find_min hmeets hi' ⟨hi'.trans hlt, hmeet'⟩
  · rw [hg]
    apply Nat.gcd_dvd_gcd_of_dvd_left
    have hdvd := Finset.dvd_prod_of_mem (fun i => roundDistance pq c y j (k + i))
      (Finset.mem_range.mpr (show Nat.find hmeets - k < n by omega))
    rwa [Nat.add_sub_cancel' hk] at hdvd
  · rw [hg]
    exact Nat.gcd_dvd_right _ _

theorem before_start (pq c y : ℕ) : Before pq c y 0 { y, g := 1, q := 1, ys := 0 } :=
  ⟨rfl, rfl, Nat.gcd_one_left pq, fun _ hj' => absurd hj' (Nat.not_lt_zero _)⟩

/-- What is returned: the gcd of the first comparison that meets, or, from a whole batch, a factor
that this gcd divides. -/
theorem decompose_eq {bound y m g : ℕ} (hodd : pq % 2 = 1)
    (hrun : decompose bound pq y c m = some g) : ∃ j i, First (Meets pq c y) j i ∧
      (g ≠ 1 ∧ g ≠ pq ∧ g ∣ pq ∧ Nat.gcd (roundDistance pq c y j i) pq ∣ g ∨
        g = Nat.gcd (roundDistance pq c y j i) pq) := by
  rw [decompose, if_neg (by omega)] at hrun
  obtain ⟨⟨x, v⟩, hrounds, hrest⟩ := Option.bind_eq_some_iff.mp hrun
  obtain ⟨j, hduring⟩ := rounds_spec (j := 0) (before_start pq c y) hrounds
  obtain ⟨k, i, hfirst, hys, hki, hdvd, hpq⟩ := exists_first_caught hduring
  refine ⟨j, i, hfirst, ?_⟩
  by_cases hall : v.g = pq
  · right
    simp only [hall, if_true] at hrest
    obtain ⟨i', hbefore, rfl, hone⟩ := backtrack_spec hrest
    have hdist (i : ℕ) : distances pq c x v.ys i = roundDistance pq c y j (k + i) := by
      rw [hduring.begins, hys, ← distances_eq, distances, distances, value_add, value_add]
      congr 2
      omega
    simp only [hdist] at hbefore hone ⊢
    have hpos : 0 < pq := by omega
    rcases Nat.lt_trichotomy (k + i') i with hlt | heq | hlt
    · exact absurd hone.ne' (hfirst.round _ hlt)
    · rw [heq]
    · have hgcd := Nat.gcd_pos_of_pos_right (roundDistance pq c y j i) hpos
      have hle := hbefore (i - k) (by omega)
      rw [Nat.add_sub_cancel' hki] at hle
      exact absurd (show Nat.gcd (roundDistance pq c y j i) pq = 1 by omega) hfirst.holds
  · left
    simp only [hall, if_false] at hrest
    obtain rfl := Option.some.inj hrest
    exact ⟨hduring.caught.ne_one, hall, hpq, hdvd⟩

/-- The first comparison whose values agree modulo a divisor of `pq` is not one of equal values. -/
def MeetsApart (pq c y : ℕ) : Prop :=
  ∀ j i, First (Meets pq c y) j i →
    value pq c y (savedIndex j) ≠ value pq c y (comparedIndex j i)

theorem distance_eq_zero {x y : ℕ} : distance x y = 0 ↔ x = y := by
  rw [distance, Int.natAbs_eq_zero]
  omega

theorem value_lt {y : ℕ} (hy : y < pq) (n : ℕ) : value pq c y n < pq := by
  cases n with
  | zero => exact hy
  | succ n =>
    rw [value, Function.iterate_succ_apply']
    exact Nat.mod_lt _ (by omega)

theorem exists_first_meeting {y : ℕ} (hy : 1 ≤ y ∧ y < pq) (hodd : pq % 2 = 1) :
    ∃ j i, First (Meets pq c y) j i := by
  have hfinite : (Set.range fun n => (next pq c)^[n] y).Finite := by
    apply (Set.finite_Iio pq).subset
    rintro _ ⟨n, rfl⟩
    exact value_lt hy.2 n
  obtain ⟨j, i, hi, hequal⟩ := exists_equal hfinite
  refine exists_first ⟨j, i, hi, ?_⟩
  have hzero : distance (value pq c y (savedIndex j)) (value pq c y (comparedIndex j i)) = 0 :=
    distance_eq_zero.mpr hequal
  rw [Meets, hzero, Nat.gcd_zero_left]
  omega

theorem exists_decompose {y m : ℕ} (hodd : pq % 2 = 1) (hy : 1 ≤ y ∧ y < pq) (hm : 0 < m) :
    ∃ bound g, decompose bound pq y c m = some g := by
  obtain ⟨J, I, hfirst⟩ := exists_first_meeting (c := c) hy hodd
  have hpow := one_le_two_pow J
  refine ⟨2 ^ J + J + 2, ?_⟩
  obtain ⟨x, v, hrounds⟩ : ∃ x v, rounds pq c m (2 ^ J + J + 2) (2 ^ J + J + 2) (2 ^ 0) 0
      { y, g := 1, q := 1, ys := 0 } = some (x, v) :=
    rounds_total hm hfirst (before_start pq c y) (Nat.zero_le J) (by omega) (by omega)
  obtain ⟨j, hduring⟩ := rounds_spec (j := 0) (before_start pq c y) hrounds
  obtain ⟨k, i, hfirst', hys, hki, hdvd, hpq⟩ := exists_first_caught hduring
  obtain ⟨rfl, rfl⟩ := hfirst.unique hfirst'
  rw [decompose, if_neg (by omega)]
  change ∃ g, (rounds pq c m _ _ (2 ^ 0) 0 _ >>= _) = some g
  rw [hrounds]
  change ∃ g, (if v.g = pq then backtrack pq c x _ v.ys else some v.g) = some g
  split_ifs
  · have hlt := hfirst.lt
    have hpos := Nat.gcd_pos_of_pos_right (roundDistance pq c y J I) (by omega : 0 < pq)
    have hne : Nat.gcd (roundDistance pq c y J I) pq ≠ 1 := hfirst.holds
    have hdist : distances pq c x v.ys (I - k) = roundDistance pq c y J I := by
      rw [hduring.begins, hys, ← distances_eq, distances, distances, value_add, value_add]
      congr 2
      omega
    exact backtrack_total (i := I - k) (by omega) (by rw [hdist]; omega)
  · exact ⟨_, rfl⟩

/-- The loops end, and what is returned is a proper factor exactly where the first comparison that
meets is not one of equal values. -/
theorem decompose_proper_iff {y m : ℕ} (hodd : pq % 2 = 1) (hy : 1 ≤ y ∧ y < pq) (hm : 0 < m) :
    (∃ bound g, decompose bound pq y c m = some g) ∧
      ∀ bound g, decompose bound pq y c m = some g →
        (g ∣ pq ∧ 1 < g ∧ g < pq ↔ MeetsApart pq c y) := by
  refine ⟨exists_decompose hodd hy hm, fun bound g hrun => ?_⟩
  obtain ⟨j, i, hfirst, hresult⟩ := decompose_eq hodd hrun
  have hapart : MeetsApart pq c y ↔ roundDistance pq c y j i ≠ 0 := by
    rw [roundDistance, Ne, distance_eq_zero]
    constructor
    · intro h
      exact h j i hfirst
    · intro h j' i' hfirst'
      obtain ⟨rfl, rfl⟩ := hfirst.unique hfirst'
      exact h
  rw [hapart]
  have hpos : 0 < pq := by omega
  constructor
  · rintro ⟨hdvd, -, hlt⟩ hzero
    rw [hzero, Nat.gcd_zero_left] at hresult
    obtain ⟨-, hne, -, hle⟩ | rfl := hresult
    · exact hne (Nat.dvd_antisymm hdvd hle)
    · exact absurd hlt (Nat.lt_irrefl g)
  · intro hne
    have hsmall : roundDistance pq c y j i < pq := by
      have h₁ := value_lt (c := c) hy.2 (savedIndex j)
      have h₂ := value_lt (c := c) hy.2 (comparedIndex j i)
      rw [roundDistance, distance]
      omega
    obtain ⟨hone, hall, hdvd, -⟩ | rfl := hresult
    · have hgpos := Nat.pos_of_dvd_of_pos hdvd hpos
      have hle := Nat.le_of_dvd hpos hdvd
      exact ⟨hdvd, by omega, by omega⟩
    · have hgcd := Nat.gcd_pos_of_pos_right (roundDistance pq c y j i) hpos
      have hle := Nat.gcd_le_left pq (Nat.pos_of_ne_zero hne)
      have hmeets : Nat.gcd (roundDistance pq c y j i) pq ≠ 1 := hfirst.holds
      exact ⟨Nat.gcd_dvd_right _ _, by omega, by omega⟩

/-- Of 15, from 2, with 1 added in each step. -/
theorem decompose_proper_iff_fifteen : (∃ bound g, decompose bound 15 2 1 3 = some g) ∧
    ∀ bound g, decompose bound 15 2 1 3 = some g →
      (g ∣ 15 ∧ 1 < g ∧ g < 15 ↔ MeetsApart 15 1 2) :=
  decompose_proper_iff (by decide) (by decide) (by decide)

/-- From 1 the values 1, 2, 5, 11, 2 of the first two rounds differ by what is coprime to 15, or not
at all. -/
theorem decompose_trivial : ¬∀ p q y c m bound g : ℕ, p.Prime → q.Prime → p ≠ q → p % 2 = 1 →
    q % 2 = 1 → (1 ≤ y ∧ y < p * q) → (1 ≤ c ∧ c < p * q) → (1 ≤ m ∧ m < p * q) →
      decompose bound (p * q) y c m = some g → g ∣ p * q ∧ 1 < g ∧ g < p * q := by
  intro h
  have hproper := h 3 5 1 1 1 10 15 Nat.prime_three Nat.prime_five (by decide) (by decide)
    (by decide) (by decide) (by decide) (by decide) (by decide)
  exact absurd hproper (by decide)

end AllInOneBackup.Kurigram.Prime
