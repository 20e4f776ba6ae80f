import Mathlib.Algebra.Order.Ring.Nat
import Mathlib.Data.Int.DivMod
import Mathlib.Tactic.Common
import Mathlib.Tactic.Positivity

/-! Byte strings: integers of a fixed width as `int.to_bytes`, `int.from_bytes` and `struct`
write and read them, Python's slices with a bound of either sign, and the checksum of
`binascii.crc32`. Where Python raises because a number does not fit, the result is `none`. -/

namespace AllInOneBackup

abbrev Bytes := List UInt8

namespace Bytes

/-! ### Integers of a fixed width -/

/-- The `w` lowest bytes of `n`, lowest first. -/
def leBytes : ℕ → ℕ → Bytes
  | 0, _ => []
  | w + 1, n => UInt8.ofNat n :: leBytes w (n / 256)

/-- `int.from_bytes(bs, "little")`. -/
def ofLE : Bytes → ℕ
  | [] => 0
  | b :: bs => b.toNat + 256 * ofLE bs

@[simp] theorem length_leBytes (w n : ℕ) : (leBytes w n).length = w := by
  induction w generalizing n with
  | zero => rfl
  | succ w ih => simp [leBytes, ih]

theorem ofLE_leBytes {w n : ℕ} (h : n < 256 ^ w) : ofLE (leBytes w n) = n := by
  induction w generalizing n with
  | zero => simp only [pow_zero, Nat.lt_one_iff] at h; simp [leBytes, ofLE, h]
  | succ w ih =>
    rw [leBytes, ofLE, ih (Nat.div_lt_of_lt_mul (by rwa [pow_succ'] at h))]
    simp only [UInt8.toNat_ofNat']
    omega

theorem ofLE_lt (bs : Bytes) : ofLE bs < 256 ^ bs.length := by
  induction bs with
  | nil => simp [ofLE]
  | cons b bs ih =>
    have hb := b.toNat_lt
    rw [ofLE, List.length_cons, pow_succ']
    omega

/-- The same, highest byte first. -/
def beBytes (w n : ℕ) : Bytes := (leBytes w n).reverse

/-- `int.from_bytes(bs, "big")`. -/
def ofBE (bs : Bytes) : ℕ := ofLE bs.reverse

@[simp] theorem length_beBytes (w n : ℕ) : (beBytes w n).length = w := by simp [beBytes]

theorem ofBE_beBytes {w n : ℕ} (h : n < 256 ^ w) : ofBE (beBytes w n) = n := by
  rw [ofBE, beBytes, List.reverse_reverse, ofLE_leBytes h]

/-- `int.from_bytes(bs, "little", signed=True)`. -/
def ofSignedLE (bs : Bytes) : ℤ := (ofLE bs : ℤ).bmod (256 ^ bs.length)

/-- An unsigned number of `w` bytes: `to_bytes(w, "little")`, `"<I"` where `w` is 4. -/
def packUnsigned (w n : ℕ) : Option Bytes := if n < 256 ^ w then some (leBytes w n) else none

/-- A signed number of `w` bytes: `"<i"` where `w` is 4, `"<q"` where it is 8. -/
def packSigned (w : ℕ) (n : ℤ) : Option Bytes :=
  if -256 ^ w ≤ 2 * n ∧ 2 * n < 256 ^ w then some (leBytes w (n % 256 ^ w).toNat) else none

theorem packSigned_isSome_iff {w : ℕ} {n : ℤ} :
    (packSigned w n).isSome ↔ -256 ^ w ≤ 2 * n ∧ 2 * n < 256 ^ w := by
  unfold packSigned
  split_ifs with h <;> simp [h]

theorem packUnsigned_eq_some {w n : ℕ} {bs : Bytes} (h : packUnsigned w n = some bs) :
    bs.length = w ∧ ofLE bs = n := by
  unfold packUnsigned at h
  split_ifs at h with hn
  cases h
  exact ⟨length_leBytes w n, ofLE_leBytes hn⟩

theorem packSigned_eq_some {w : ℕ} {n : ℤ} {bs : Bytes} (h : packSigned w n = some bs) :
    bs.length = w ∧ ofSignedLE bs = n := by
  unfold packSigned at h
  split_ifs at h with hn
  cases h
  refine ⟨length_leBytes _ _, ?_⟩
  have hpos : (0 : ℤ) < 256 ^ w := by positivity
  have h0 : 0 ≤ n % 256 ^ w := Int.emod_nonneg _ hpos.ne'
  have hlt : (n % 256 ^ w).toNat < 256 ^ w := by
    rw [Int.toNat_lt h0]
    push_cast
    exact Int.emod_lt_of_pos n hpos
  rw [ofSignedLE, ofLE_leBytes hlt, length_leBytes, Int.toNat_of_nonneg h0]
  have hcast : (256 : ℤ) ^ w = ((256 ^ w : ℕ) : ℤ) := by push_cast; rfl
  rw [hcast] at hn ⊢
  rw [Int.emod_bmod]
  exact Int.bmod_eq_of_le_mul_two (by omega) (by omega)

/-! ### Slices -/

section Slices

variable {α : Type*}

/-- Where the index `n` of a slice of `xs` points: from the end if it is negative, and
never past either end. -/
def sliceIndex (xs : List α) (n : ℤ) : ℕ := (if 0 ≤ n then n else xs.length + n).toNat

/-- `xs[:n]`. -/
def sliceTo (xs : List α) (n : ℤ) : List α := xs.take (sliceIndex xs n)

/-- `xs[n:]`. -/
def sliceFrom (xs : List α) (n : ℤ) : List α := xs.drop (sliceIndex xs n)

@[simp] theorem sliceTo_natCast (xs : List α) (n : ℕ) : sliceTo xs n = xs.take n := by
  simp [sliceTo, sliceIndex]

@[simp] theorem sliceFrom_natCast (xs : List α) (n : ℕ) : sliceFrom xs n = xs.drop n := by
  simp [sliceFrom, sliceIndex]

theorem sliceIndex_append_neg (xs ys : List α) (h : ys ≠ []) :
    sliceIndex (xs ++ ys) (-ys.length) = xs.length := by
  have hpos := List.length_pos_iff.mpr h
  rw [sliceIndex, if_neg (by omega), List.length_append]
  omega

/-- `(xs + ys)[:-len(ys)]`. -/
theorem sliceTo_append_neg (xs ys : List α) (h : ys ≠ []) :
    sliceTo (xs ++ ys) (-ys.length) = xs := by
  rw [sliceTo, sliceIndex_append_neg xs ys h, List.take_left]

/-- `(xs + ys)[-len(ys):]`. -/
theorem sliceFrom_append_neg (xs ys : List α) (h : ys ≠ []) :
    sliceFrom (xs ++ ys) (-ys.length) = ys := by
  rw [sliceFrom, sliceIndex_append_neg xs ys h, List.drop_left]

end Slices

/-! ### The checksum -/

/-- One bit of the reflected CRC with the polynomial `0x04C11DB7`. -/
def crcBit (c : UInt32) : UInt32 :=
  if c &&& 1 = 1 then (c >>> 1) ^^^ 0xEDB88320 else c >>> 1

/-- `binascii.crc32`. -/
def crc32 (data : Bytes) : UInt32 :=
  (data.foldl (fun c b => Nat.iterate crcBit 8 (c ^^^ b.toUInt32)) 0xFFFFFFFF) ^^^ 0xFFFFFFFF

example : crc32 [0x31, 0x32, 0x33, 0x34, 0x35, 0x36, 0x37, 0x38, 0x39] = 0xCBF43926 := by
  decide +kernel

end Bytes

end AllInOneBackup
