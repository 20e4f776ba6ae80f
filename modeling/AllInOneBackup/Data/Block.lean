import AllInOneBackup.Data.Bytes
import Mathlib.Data.Fintype.EquivFin
import Mathlib.Data.Nat.ModEq

/-! Blocks of a fixed number of bytes, read as numbers with the highest byte first. A block is
determined by its number, so there are finitely many; changing one byte changes the number by a
multiple of that byte's weight. Blocks chained on both sides come back from the inverse chain. -/

namespace AllInOneBackup

namespace Bytes

theorem leBytes_ofLE (bs : Bytes) : leBytes bs.length (ofLE bs) = bs := by
  induction bs with
  | nil => rfl
  | cons b bs ih =>
    have hb := b.toNat_lt
    have hdiv : (b.toNat + 256 * ofLE bs) / 256 = ofLE bs := by omega
    have hlow : UInt8.ofNat (b.toNat + 256 * ofLE bs) = b := by
      apply UInt8.toNat.inj
      rw [UInt8.toNat_ofNat']
      omega
    rw [List.length_cons, ofLE, leBytes, hdiv, ih, hlow]

theorem beBytes_ofBE (bs : Bytes) : beBytes bs.length (ofBE bs) = bs := by
  have h := leBytes_ofLE bs.reverse
  rw [List.length_reverse] at h
  rw [beBytes, ofBE, h, List.reverse_reverse]

theorem ofBE_lt (bs : Bytes) : ofBE bs < 256 ^ bs.length := by
  have h := ofLE_lt bs.reverse
  rwa [List.length_reverse] at h

theorem ofLE_set {bs : Bytes} {k : ℕ} (hk : k < bs.length) (b : UInt8) :
    ofLE (bs.set k b) + 256 ^ k * bs[k].toNat = ofLE bs + 256 ^ k * b.toNat := by
  induction bs generalizing k with
  | nil => exact absurd hk (Nat.not_lt_zero k)
  | cons c bs ih =>
    cases k with
    | zero =>
      simp only [List.set_cons_zero, ofLE, List.getElem_cons_zero, pow_zero, one_mul]
      omega
    | succ k =>
      have h := ih (Nat.lt_of_succ_lt_succ hk)
      simp only [List.set_cons_succ, ofLE, List.getElem_cons_succ, pow_succ']
      simp only [mul_assoc]
      omega

theorem ofBE_set {bs : Bytes} {k : ℕ} (hk : k < bs.length) (b : UInt8) :
    ofBE (bs.set k b) + 256 ^ (bs.length - 1 - k) * bs[k].toNat =
      ofBE bs + 256 ^ (bs.length - 1 - k) * b.toNat := by
  have hrev : (bs.set k b).reverse = bs.reverse.set (bs.length - 1 - k) b := by
    apply List.ext_getElem (by simp)
    intro i hi hi'
    simp only [List.length_reverse, List.length_set] at hi hi'
    simp only [List.getElem_reverse, List.getElem_set, List.length_set]
    by_cases h : k = bs.length - 1 - i
    · rw [if_pos h, if_pos (by omega)]
    · rw [if_neg h, if_neg (by omega)]
  have hlt : bs.length - 1 - k < bs.reverse.length := by rw [List.length_reverse]; omega
  have h := ofLE_set hlt b
  have hget : bs.reverse[bs.length - 1 - k] = bs[k] := by
    rw [List.getElem_reverse]
    congr 1
    omega
  rwa [hget, ← hrev] at h

end Bytes

/-- `n` bytes. -/
abbrev Block (n : ℕ) := Vector UInt8 n

namespace Block

open Bytes

variable {n : ℕ}

/-- The block as a number, the first byte being the highest. -/
def value (x : Block n) : ℕ := ofBE x.toList

/-- The `n` lowest bytes of `m`. -/
def ofNat (m : ℕ) : Block n := ⟨(beBytes n m).toArray, by simp⟩

/-- The bytes, if they are as many as a block has. -/
def ofBytes (bs : Bytes) : Option (Block n) :=
  if h : bs.length = n then some ⟨bs.toArray, by simpa using h⟩ else none

theorem value_lt (x : Block n) : x.value < 256 ^ n := by
  have h := ofBE_lt x.toList
  rwa [Vector.length_toList] at h

theorem toList_ofNat (m : ℕ) : (ofNat m : Block n).toList = beBytes n m := by simp [ofNat]

theorem value_ofNat {m : ℕ} (h : m < 256 ^ n) : (ofNat m : Block n).value = m := by
  rw [value, toList_ofNat, ofBE_beBytes h]

@[simp] theorem ofNat_value (x : Block n) : ofNat x.value = x := by
  have h := beBytes_ofBE x.toList
  rw [Vector.length_toList] at h
  rw [← Vector.toList_inj, toList_ofNat, value, h]

theorem value_injective : Function.Injective (value (n := n)) :=
  Function.LeftInverse.injective ofNat_value

instance : Finite (Block n) :=
  Finite.of_injective (fun x => (⟨x.value, x.value_lt⟩ : Fin (256 ^ n))) fun _ _ h =>
    value_injective (Fin.mk.inj h)

@[simp] theorem ofBytes_toList (x : Block n) : ofBytes x.toList = some x := by
  rw [ofBytes, dif_pos Vector.length_toList]
  congr 1

theorem eq_toList_of_length {bs : Bytes} (h : bs.length = n) : ∃ x : Block n, bs = x.toList :=
  ⟨⟨bs.toArray, h⟩, rfl⟩

/-- A byte weighs as much as its place says. -/
theorem value_set (x : Block n) {k : ℕ} (hk : k < n) (b : UInt8) :
    value (x.set k b) + 256 ^ (n - 1 - k) * x[k].toNat =
      x.value + 256 ^ (n - 1 - k) * b.toNat := by
  have hlen : k < x.toList.length := by rwa [Vector.length_toList]
  have h := ofBE_set hlen b
  rwa [Vector.length_toList, ← Vector.toList_set hk, Vector.getElem_toList] at h

end Block

/-! ### Chained blocks -/

namespace Garble

section Chain

variable {α : Type*} (xor : α → α → α) (encrypt decrypt : α → α)

/-- `a` is the last block put out and `b` the last one taken. -/
def chainEncrypt : α → α → List α → List α
  | _, _, [] => []
  | a, b, x :: xs =>
    let c := xor (encrypt (xor x a)) b
    c :: chainEncrypt c x xs

/-- `a` is the last block taken and `b` the last one put out. -/
def chainDecrypt : α → α → List α → List α
  | _, _, [] => []
  | a, b, c :: cs =>
    let x := xor (decrypt (xor c b)) a
    x :: chainDecrypt c x cs

@[simp] theorem length_chainEncrypt (a b : α) (xs : List α) :
    (chainEncrypt xor encrypt a b xs).length = xs.length := by
  induction xs generalizing a b with
  | nil => rfl
  | cons x xs ih => rw [chainEncrypt, List.length_cons, List.length_cons, ih]

@[simp] theorem length_chainDecrypt (a b : α) (cs : List α) :
    (chainDecrypt xor decrypt a b cs).length = cs.length := by
  induction cs generalizing a b with
  | nil => rfl
  | cons c cs ih => rw [chainDecrypt, List.length_cons, List.length_cons, ih]

variable {xor encrypt decrypt} (hxor : ∀ x y, xor (xor x y) y = x)

include hxor

theorem chainDecrypt_chainEncrypt (h : Function.LeftInverse decrypt encrypt) (a b : α)
    (xs : List α) :
    chainDecrypt xor decrypt a b (chainEncrypt xor encrypt a b xs) = xs := by
  induction xs generalizing a b with
  | nil => rfl
  | cons x xs ih => rw [chainEncrypt, chainDecrypt, hxor, h, hxor, ih]

theorem chainEncrypt_chainDecrypt (h : Function.RightInverse decrypt encrypt) (a b : α)
    (cs : List α) :
    chainEncrypt xor encrypt a b (chainDecrypt xor decrypt a b cs) = cs := by
  induction cs generalizing a b with
  | nil => rfl
  | cons c cs ih => rw [chainDecrypt, chainEncrypt, hxor, h, hxor, ih]

end Chain

end Garble

end AllInOneBackup
