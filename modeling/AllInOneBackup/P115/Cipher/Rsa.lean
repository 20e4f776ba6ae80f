import AllInOneBackup.Data.UndonePower
import AllInOneBackup.P115.Cipher.Xor
import Mathlib.Data.Nat.Size

/-! RSA on blocks. A block of the message is padded so that its number has a zero byte in front of
it, which is lost on the way, and a zero byte behind the padding, which is the first one that
comes out. -/

namespace AllInOneBackup.P115.Cipher

open Bytes Chunked

/-! ### Model -/

/-- `pad_pkcs1_v1_5`, before it is read as a number. -/
def padded (message : Bytes) (size : ℕ) : Bytes :=
  0 :: (List.replicate (size - 2 - message.length) 2 ++ 0 :: message)

def padPkcs1V15 (message : Bytes) (size : ℕ) : ℕ := ofBE (padded message size)

/-- `pow(m, e, n)`; without a modulus it raises. -/
def powMod (m e n : ℕ) : Option ℕ := if n = 0 then none else some (m ^ e % n)

/-- `int.bit_length`. -/
def bitLength (n : ℕ) : ℕ := n.size

/-- For a block size above 11. -/
def rsaEncryptWithPubkey (data : Bytes) (blockSize n e : ℕ) : Option Bytes := do
  let steps ← accStep 0 data.length (blockSize - 11)
  let blocks ← steps.mapM fun (l, r, _) => do
    let m ← powMod (padPkcs1V15 (data.extract l r) blockSize) e n
    toBytes m blockSize .big
  return blocks.flatten

/-- What is left of a block behind its first zero byte; `index` raises where there is none. -/
def unpadded (b : Bytes) : Option Bytes := (b.idxOf? 0).map fun i => b.drop (i + 1)

def rsaDecryptWithPubkey (cipherData : Bytes) (blockSize n e : ℕ) : Option Bytes := do
  let steps ← accStep 0 cipherData.length blockSize
  let blocks ← steps.mapM fun (l, r, _) => do
    let p ← powMod (ofBE (cipherData.extract l r)) e n
    let b ← toBytes p ((bitLength p + 7) >>> 3) .big
    unpadded b
  return blocks.flatten

/-- The private exponent is undone by the public one. -/
def Inverse (n d e : ℕ) : Prop := ∀ m < n, (m ^ d) ^ e % n = m

/-! ### One block -/

theorem ofBE_cons (b : UInt8) (bs : Bytes) :
    ofBE (b :: bs) = ofBE bs + 256 ^ bs.length * b.toNat := by
  have happend : ∀ xs : Bytes, ofLE (xs ++ [b]) = ofLE xs + 256 ^ xs.length * b.toNat := by
    intro xs
    induction xs with
    | nil => simp [ofLE]
    | cons x xs ih =>
      rw [List.cons_append, ofLE, ih, ofLE, List.length_cons, pow_succ', Nat.mul_add, mul_assoc]
      omega
  rw [ofBE, List.reverse_cons, happend, List.length_reverse]
  rfl

/-- What comes out of one block. -/
def decrypted (n e : ℕ) (b : Bytes) : Option Bytes :=
  (powMod (ofBE b) e n).bind fun p =>
    (toBytes p ((bitLength p + 7) >>> 3) .big).bind unpadded

/-- As many bytes as a number needs are those it was read from, but for leading zeros. -/
theorem toBytes_bitLength {b : UInt8} (hb : b ≠ 0) (bs : Bytes) :
    toBytes (ofBE (b :: bs)) ((bitLength (ofBE (b :: bs)) + 7) >>> 3) .big = some (b :: bs) := by
  have hpos : 0 < b.toNat := Nat.pos_of_ne_zero fun h => hb (UInt8.toNat.inj h)
  have hlow : 2 ^ (8 * bs.length) ≤ ofBE (b :: bs) := by
    rw [ofBE_cons, pow_mul]
    exact (Nat.le_mul_of_pos_right _ hpos).trans (Nat.le_add_left _ _)
  have hhigh : ofBE (b :: bs) < 2 ^ (8 * (bs.length + 1)) := by
    rw [pow_mul]
    exact ofBE_lt (b :: bs)
  have hsize : (bitLength (ofBE (b :: bs)) + 7) >>> 3 = (b :: bs).length := by
    have hlt : 8 * bs.length < bitLength (ofBE (b :: bs)) := Nat.lt_size.mpr hlow
    have hle : bitLength (ofBE (b :: bs)) ≤ 8 * (bs.length + 1) := Nat.size_le.mpr hhigh
    rw [Nat.shiftRight_eq_div_pow, List.length_cons]
    omega
  rw [hsize]
  exact toBytes_ofBE (b :: bs) .big

/-- The first zero byte behind bytes that are not zero. -/
theorem unpadded_replicate (k : ℕ) (message : Bytes) :
    unpadded (List.replicate k 2 ++ 0 :: message) = some message := by
  have hidx : (List.replicate k 2 ++ 0 :: message).idxOf? 0 = some k := by
    induction k with
    | zero => rfl
    | succ k ih =>
      rw [List.replicate_succ, List.cons_append, List.idxOf?_cons, if_neg (by decide), ih]
      rfl
  have hlen : (List.replicate k (2 : UInt8) ++ [0]).length = k + 1 := by simp
  rw [unpadded, hidx, Option.map_some, List.append_cons, List.drop_left' hlen]

section Block

variable {blockSize : ℕ} {message : Bytes} (h : message.length ≤ blockSize - 11)
  (hsize : 11 < blockSize)
include h hsize

/-- What is left of a padded block without the zero in front. -/
theorem exists_padded : ∃ rest : Bytes, padPkcs1V15 message blockSize = ofBE (2 :: rest) ∧
    (2 :: rest).length = blockSize - 1 ∧ unpadded (2 :: rest) = some message := by
  obtain ⟨k, hk⟩ : ∃ k, blockSize - 2 - message.length = k + 1 :=
    ⟨blockSize - 3 - message.length, by omega⟩
  refine ⟨List.replicate k 2 ++ 0 :: message, ?_, ?_, ?_⟩
  · rw [padPkcs1V15, padded, hk, List.replicate_succ, ofBE_cons]
    simp
  · simp only [List.length_cons, List.length_append, List.length_replicate]
    omega
  · exact unpadded_replicate (k + 1) message

theorem padPkcs1V15_lt {n : ℕ} (hlow : 256 ^ (blockSize - 1) ≤ n) :
    padPkcs1V15 message blockSize < n := by
  obtain ⟨rest, hpad, hlen, -⟩ := exists_padded h hsize
  rw [hpad]
  exact (ofBE_lt _).trans_le (hlen ▸ hlow)

end Block

/-! ### All blocks -/

section RoundTrip

variable {blockSize n d e : ℕ} (hsize : 11 < blockSize) (hlow : 256 ^ (blockSize - 1) ≤ n)
  (hhigh : n < 256 ^ blockSize)
include hsize hlow hhigh

/-- Every piece becomes a block. -/
theorem rsaEncryptWithPubkey_eq (data : Bytes) : rsaEncryptWithPubkey data blockSize n d =
    some ((pieces (blockSize - 11) data).map fun piece =>
      beBytes blockSize (padPkcs1V15 piece blockSize ^ d % n)).flatten := by
  have hpos : 0 < n := (Nat.pow_pos (by decide)).trans_le hlow
  have hsteps := mapM_accStep (by omega : 0 < blockSize - 11) data (Nat.zero_le _)
    (f := fun t => (powMod (padPkcs1V15 t.1 blockSize) d n).bind fun m => toBytes m blockSize .big)
    (g := fun piece => beBytes blockSize (padPkcs1V15 piece blockSize ^ d % n))
    fun piece hpiece => by
      have hlt : padPkcs1V15 piece blockSize ^ d % n < 256 ^ blockSize :=
        (Nat.mod_lt _ hpos).trans hhigh
      simp only [powMod, if_neg hpos.ne', Option.bind_some, toBytes, if_pos hlt]
  obtain ⟨steps, haccStep, hmapM⟩ := Option.bind_eq_some_iff.mp hsteps
  rw [rsaEncryptWithPubkey, haccStep]
  exact congrArg (fun blocks => Option.bind blocks fun blocks => some blocks.flatten) hmapM

omit hlow hhigh in
theorem rsaDecryptWithPubkey_eq {blocks : List Bytes} (hblocks : ∀ b ∈ blocks, b.length = blockSize)
    {g : Bytes → Bytes} (hg : ∀ b ∈ blocks, decrypted n e b = some (g b)) :
    rsaDecryptWithPubkey blocks.flatten blockSize n e = some (blocks.map g).flatten := by
  have hpieces := pieces_flatten (by omega) hblocks
  have hsteps := mapM_accStep (by omega : 0 < blockSize) blocks.flatten (Nat.zero_le _)
    (f := fun t => decrypted n e t.1) (g := g) (by rwa [List.drop_zero, hpieces])
  rw [List.drop_zero, hpieces] at hsteps
  obtain ⟨steps, haccStep, hmapM⟩ := Option.bind_eq_some_iff.mp hsteps
  rw [rsaDecryptWithPubkey, haccStep]
  exact congrArg (fun blocks => Option.bind blocks fun blocks => some blocks.flatten) hmapM

/-- A block comes back as the piece it was made of. -/
theorem decrypted_beBytes (h : Inverse n d e) {piece : Bytes}
    (hpiece : piece.length ≤ blockSize - 11) :
    decrypted n e (beBytes blockSize (padPkcs1V15 piece blockSize ^ d % n)) = some piece := by
  have hpos : 0 < n := (Nat.pow_pos (by decide)).trans_le hlow
  have hlt : padPkcs1V15 piece blockSize ^ d % n < 256 ^ blockSize :=
    (Nat.mod_lt _ hpos).trans hhigh
  have hinverse := h _ (padPkcs1V15_lt hpiece hsize hlow)
  obtain ⟨rest, hpad, -, hunpadded⟩ := exists_padded hpiece hsize
  have hbytes := toBytes_bitLength (by decide : (2 : UInt8) ≠ 0) rest
  rw [← hpad] at hbytes
  rw [decrypted, ofBE_beBytes hlt, powMod, if_neg hpos.ne', ← Nat.pow_mod, hinverse, Option.bind_some,
    hbytes, Option.bind_some, hunpadded]

/-- Padded, encrypted and decrypted by blocks, the data comes back. -/
theorem rsa_roundTrip (h : Inverse n d e) (data : Bytes) :
    ((rsaEncryptWithPubkey data blockSize n d).bind fun cipherData =>
      rsaDecryptWithPubkey cipherData blockSize n e) = some data := by
  have hdecrypted : ∀ piece ∈ pieces (blockSize - 11) data,
      decrypted n e (beBytes blockSize (padPkcs1V15 piece blockSize ^ d % n)) = some piece :=
    fun piece hpiece => decrypted_beBytes hsize hlow hhigh h (length_of_mem_pieces hpiece)
  have hback : (pieces (blockSize - 11) data).map (fun piece =>
      (decrypted n e (beBytes blockSize (padPkcs1V15 piece blockSize ^ d % n))).getD []) =
        pieces (blockSize - 11) data :=
    (List.map_congr_left fun piece hpiece =>
      congrArg (Option.getD · []) (hdecrypted piece hpiece)).trans (List.map_id' _)
  rw [rsaEncryptWithPubkey_eq hsize hlow hhigh, Option.bind_some,
    rsaDecryptWithPubkey_eq hsize (g := fun b => (decrypted n e b).getD []), List.map_map]
  · exact congrArg some ((congrArg List.flatten hback).trans (flatten_pieces (by omega) data))
  · intro b hb
    obtain ⟨piece, -, rfl⟩ := List.mem_map.mp hb
    exact length_beBytes _ _
  · intro b hb
    obtain ⟨piece, hpiece, rfl⟩ := List.mem_map.mp hb
    simp only [hdecrypted piece hpiece, Option.getD_some]

end RoundTrip

/-- A modulus of twelve bytes, the product of two Mersenne primes. -/
theorem inverse_mersenne : Inverse ((2 ^ 31 - 1) * (2 ^ 61 - 1)) 0x1777888877778887 65537 := by
  intro m hm
  have h31 : Data.Undone 0x1777888877778887 65537 (2 ^ 31 - 1) :=
    Data.Undone.of_mersenne (by norm_num) (by norm_num) (by decide) (by norm_num)
  have h61 : Data.Undone 0x1777888877778887 65537 (2 ^ 61 - 1) :=
    Data.Undone.of_mersenne (by norm_num) (by norm_num) (by decide) (by norm_num)
  exact (h31.mul h61 (by norm_num)).emod_eq hm

theorem rsa_roundTrip_twelve :
    ((rsaEncryptWithPubkey [0, 7, 0] 12 ((2 ^ 31 - 1) * (2 ^ 61 - 1)) 0x1777888877778887).bind
      fun cipherData => rsaDecryptWithPubkey cipherData 12 ((2 ^ 31 - 1) * (2 ^ 61 - 1)) 65537) =
        some [0, 7, 0] :=
  rsa_roundTrip (by decide) (by norm_num) (by norm_num) inverse_mersenne [0, 7, 0]

end AllInOneBackup.P115.Cipher
