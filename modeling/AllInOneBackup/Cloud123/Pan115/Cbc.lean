import AllInOneBackup.Cloud123.Pan115.Aes128
import AllInOneBackup.P115.Cipher.Cbc

/-! The CBC mode over it. As in the other implementation, data that fills its last block is not
padded. -/

namespace AllInOneBackup.Cloud123.Pan115

open Bytes Chunked

open P115.Cipher (pad padSize EndsAsPadding dvd_length_pad padSize_eq_zero_iff)

/-! ### Model -/

/-- `_unpad`; without a last byte there is nothing to strip, nor with fewer bytes than it counts. -/
def unpad (data : Bytes) : Bytes :=
  match data.getLast? with
  | none => data
  | some size =>
    if 0 < size ∧ size < 16 ∧
        data.drop (data.length - size.toNat) = List.replicate size.toNat size then
      data.take (data.length - size.toNat)
    else data

/-- The loop of `aes_cbc_encrypt`, with the blocks that are left. -/
def cbcEncrypt (keys : List RoundKey) : Bytes → List Bytes → Option Bytes
  | _, [] => some []
  | previous, p :: view => do
    let previous ← encryptBlock keys (List.zipWith (· ^^^ ·) p previous)
    let output ← cbcEncrypt keys previous view
    return previous ++ output

/-- The loop of `aes_cbc_decrypt`. -/
def cbcDecrypt (keys : List RoundKey) : Bytes → List Bytes → Option Bytes
  | _, [] => some []
  | previous, block :: view => do
    let p ← decryptBlock keys block
    let output ← cbcDecrypt keys block view
    return List.zipWith (· ^^^ ·) p previous ++ output

def aesCbcEncrypt (data key iv : Bytes) : Option Bytes := do
  cbcEncrypt (← roundKeys key) iv (pieces 16 (pad data))

def aesCbcDecrypt (cipherData key iv : Bytes) : Option Bytes := do
  let output ← cbcDecrypt (← roundKeys key) iv (pieces 16 cipherData)
  return unpad output

/-! ### Padding -/

/-- On a whole block nothing is stripped that the other implementation does not strip. -/
theorem unpad_eq {data : Bytes} (h : 16 ≤ data.length) :
    some (unpad data) = P115.Cipher.unpad data := by
  have hne : data ≠ [] := List.ne_nil_of_length_pos (by omega)
  obtain ⟨size, hsize⟩ : ∃ size, data.getLast? = some size := ⟨_, List.getLast?_eq_some_getLast hne⟩
  have hiff : (0 < size ∧ size < 16 ∧
        data.drop (data.length - size.toNat) = List.replicate size.toNat size) ↔
      0 < size ∧ size < 16 ∧ (data.drop (data.length - size.toNat)).all (· = size) := by
    refine and_congr_right fun _ => and_congr_right fun hlt => ?_
    have hsmall : size.toNat < 16 := hlt
    have hlen : (data.drop (data.length - size.toNat)).length = size.toNat := by
      rw [List.length_drop]
      omega
    rw [List.eq_replicate_iff, and_iff_right hlen]
    simp only [List.all_eq_true, decide_eq_true_eq]
  simp only [unpad, P115.Cipher.unpad, hsize, Option.map_some, hiff]

/-- Padding comes off again, unless there is none and the data ends as padding does. -/
theorem unpad_pad_iff (data : Bytes) :
    unpad (pad data) = data ↔ ¬(16 ∣ data.length ∧ EndsAsPadding data) := by
  have hpad : pad data = [] ↔ data = [] := by
    rw [pad]
    split_ifs with hsize
    · constructor
      · exact fun hnil => (List.append_eq_nil_iff.mp hnil).1
      · rintro rfl
        exact absurd rfl hsize
    · exact Iff.rfl
  by_cases hnil : data = []
  · subst hnil
    refine iff_of_true rfl ?_
    rintro ⟨-, front, p, -, hpos, heq⟩
    have hlen := congrArg List.length heq
    rw [List.length_append, List.length_replicate, List.length_nil] at hlen
    omega
  · have hblock : 16 ≤ (pad data).length :=
      Nat.le_of_dvd (List.length_pos_iff.mpr (mt hpad.mp hnil)) (dvd_length_pad data)
    have hunpad := unpad_eq hblock
    have hiff := P115.Cipher.unpad_pad_iff data
    rw [← hunpad, Option.some.injEq] at hiff
    rw [hiff]
    simp only [hnil, false_or]

/-! ### Chains -/

variable {keys : List RoundKey}

theorem encryptBlock_spec (keys : List RoundKey) {block : Bytes} (h : block.length = 16) :
    ∃ c, encryptBlock keys block = some c ∧ c.length = 16 ∧ decryptBlock keys c = some block := by
  have hback := decryptBlock_encryptBlock keys h
  cases hc : encryptBlock keys block with
  | none =>
    rw [hc, Option.bind_none] at hback
    cases hback
  | some c =>
    rw [hc, Option.bind_some] at hback
    obtain ⟨cols, -, rfl⟩ := Option.map_eq_some_iff.mp hc
    exact ⟨_, rfl, rfl, hback⟩

theorem encryptBlock_eq_none {block : Bytes} (h : block.length ≠ 16) :
    encryptBlock keys block = none := by
  cases hcols : columns block with
  | none => rw [encryptBlock, hcols, Option.map_none]
  | some cols =>
    rw [← bytes_transpose hcols] at h
    exact absurd (length_bytes _) h

/-- The blocks come back one by one, each from the cipher block before it. -/
theorem cbcDecrypt_cbcEncrypt (keys : List RoundKey) {blocks : List Bytes}
    (hblocks : ∀ p ∈ blocks, p.length = 16)
    {previous : Bytes} (hprevious : 16 ≤ previous.length) :
    ∃ cs : List Bytes, (∀ c ∈ cs, c.length = 16) ∧
      cbcEncrypt keys previous blocks = some cs.flatten ∧
      cbcDecrypt keys previous cs = some blocks.flatten := by
  induction blocks generalizing previous with
  | nil => exact ⟨[], List.forall_mem_nil _, rfl, rfl⟩
  | cons p blocks ih =>
    obtain ⟨hp, hblocks⟩ := List.forall_mem_cons.mp hblocks
    have hinput : (List.zipWith (· ^^^ ·) p previous).length = 16 := by
      rw [List.length_zipWith]
      omega
    obtain ⟨c, hc, hlen, hback⟩ := encryptBlock_spec keys hinput
    obtain ⟨cs, hlens, hencrypt, hdecrypt⟩ := ih hblocks hlen.ge
    refine ⟨c :: cs, List.forall_mem_cons.mpr ⟨hlen, hlens⟩, ?_, ?_⟩
    · rw [cbcEncrypt, hc]
      simp [hencrypt]
    · rw [cbcDecrypt, hback]
      simp [hdecrypt, P115.Cipher.zipWith_xor_zipWith_xor (hp.trans_le hprevious)]

theorem cbcEncrypt_eq_none {previous : Bytes} (hprevious : previous.length < 16) (p : Bytes)
    (blocks : List Bytes) : cbcEncrypt keys previous (p :: blocks) = none := by
  have hinput : (List.zipWith (· ^^^ ·) p previous).length ≠ 16 := by
    rw [List.length_zipWith]
    omega
  rw [cbcEncrypt, encryptBlock_eq_none hinput]
  rfl

theorem exists_roundKeys {key : Bytes} (h : key.length = 16) :
    ∃ keys, roundKeys key = some keys := by
  obtain ⟨words, hwords⟩ := exists_columns h
  rw [roundKeys, hwords, Option.map_some]
  exact ⟨_, rfl⟩

theorem aesCbcDecrypt_aesCbcEncrypt {key iv : Bytes} (hkey : key.length = 16)
    (hiv : 16 ≤ iv.length) (data : Bytes) :
    (aesCbcEncrypt data key iv).bind (aesCbcDecrypt · key iv) = some (unpad (pad data)) := by
  obtain ⟨keys, hkeys⟩ := exists_roundKeys hkey
  have hpieces := length_eq_of_mem_pieces (by decide) (dvd_length_pad data)
  obtain ⟨cs, hlens, hencrypt, hdecrypt⟩ := cbcDecrypt_cbcEncrypt keys hpieces hiv
  rw [flatten_pieces (by decide)] at hdecrypt
  simp [aesCbcEncrypt, aesCbcDecrypt, hkeys, hencrypt, pieces_flatten (show 0 < 16 by decide) hlens,
    hdecrypt]

/-- The data comes back when the initial vector fills a block, or is not used, and the data does
not fill its blocks or does not end as padding does. -/
theorem aes_cbc_comes_back_iff {key : Bytes} (hkey : key.length = 16) (iv data : Bytes) :
    (aesCbcEncrypt data key iv).bind (aesCbcDecrypt · key iv) = some data ↔
      data = [] ∨ 16 ≤ iv.length ∧ ¬(16 ∣ data.length ∧ EndsAsPadding data) := by
  obtain ⟨keys, hkeys⟩ := exists_roundKeys hkey
  by_cases hnil : data = []
  · subst hnil
    refine iff_of_true ?_ (.inl rfl)
    have hpad : pad [] = [] := rfl
    simp [aesCbcEncrypt, aesCbcDecrypt, hkeys, hpad, cbcEncrypt, cbcDecrypt, unpad]
  · rw [or_iff_right hnil]
    by_cases hiv : 16 ≤ iv.length
    · rw [aesCbcDecrypt_aesCbcEncrypt hkey hiv, Option.some.injEq, unpad_pad_iff]
      exact (and_iff_right hiv).symm
    · refine iff_of_false ?_ fun h => hiv h.1
      have hne : pad data ≠ [] := by
        rw [pad]
        split_ifs
        · exact fun h => hnil (List.append_eq_nil_iff.mp h).1
        · exact hnil
      rw [aesCbcEncrypt, hkeys, pieces_cons (by decide) hne]
      simp [cbcEncrypt_eq_none (not_le.mp hiv)]

/-- A block comes back from the cipher and from its inverse; the S-box is a permutation, and the
inverse table inverts it; and the mode gives the data back just in those cases. -/
theorem aes_right_iff {key : Bytes} (hkey : key.length = 16) :
    (∃ keys, roundKeys key = some keys ∧ ∀ block : Bytes, block.length = 16 →
      (encryptBlock keys block).bind (decryptBlock keys) = some block ∧
      (decryptBlock keys block).bind (encryptBlock keys) = some block) ∧
    SBOX.Perm (List.range 256) ∧
    (∀ b : UInt8, sub SBOX_INV (sub SBOX b) = b ∧ sub SBOX (sub SBOX_INV b) = b) ∧
    ∀ iv data : Bytes, (aesCbcEncrypt data key iv).bind (aesCbcDecrypt · key iv) = some data ↔
      data = [] ∨ 16 ≤ iv.length ∧ ¬(16 ∣ data.length ∧ EndsAsPadding data) := by
  obtain ⟨keys, hkeys⟩ := exists_roundKeys hkey
  refine ⟨⟨keys, hkeys, ?_⟩, sbox_perm, fun b => ⟨invSub_sub b, sub_invSub b⟩,
    aes_cbc_comes_back_iff hkey⟩
  intro block hblock
  exact ⟨decryptBlock_encryptBlock keys hblock, encryptBlock_decryptBlock keys hblock⟩

/-- A key of zeros, and three bytes. -/
theorem aes_right_iff_three :
    (aesCbcEncrypt [1, 2, 3] (List.replicate 16 0) (List.replicate 16 0)).bind
        (aesCbcDecrypt · (List.replicate 16 0) (List.replicate 16 0)) = some [1, 2, 3] ↔
      ([1, 2, 3] : Bytes) = [] ∨ 16 ≤ (List.replicate 16 (0 : UInt8)).length ∧
        ¬(16 ∣ ([1, 2, 3] : Bytes).length ∧ EndsAsPadding [1, 2, 3]) :=
  (aes_right_iff (by decide)).2.2.2 _ _

/-- A block that ends in a one loses it. -/
theorem last_one_stripped : ¬∀ key iv data : Bytes, key.length = 16 → iv.length = 16 →
    (aesCbcEncrypt data key iv).bind (aesCbcDecrypt · key iv) = some data := by
  intro hall
  have hback := hall (List.replicate 16 0) (List.replicate 16 0) (List.replicate 15 0 ++ [1])
    (by decide) (by decide)
  rw [aesCbcDecrypt_aesCbcEncrypt (by decide) (by decide)] at hback
  exact absurd hback (by decide +kernel)

/-- The block cipher, as the other implementation calls it. -/
def blockCipher (key : Bytes) : P115.Cipher.AES where
  encrypt x := ((roundKeys key).bind (encryptBlock · x)).getD x
  decrypt x := ((roundKeys key).bind (decryptBlock · x)).getD x

theorem inverts_blockCipher : P115.Cipher.Inverts blockCipher := by
  intro key x hkey hx
  obtain ⟨keys, hkeys⟩ := exists_roundKeys hkey
  obtain ⟨c, hencrypt, hlen, hdecrypt⟩ := encryptBlock_spec keys hx
  simp [blockCipher, hkeys, hencrypt, hlen, hdecrypt]

/-- Twenty bytes come back through the other implementation over this cipher, and a block that ends
in a one does not. -/
theorem aesCbcDecrypt_iff_blockCipher : let key := List.replicate 16 7
    let iv := List.replicate 16 9
    P115.Cipher.aesCbcDecrypt blockCipher
      (P115.Cipher.aesCbcEncrypt blockCipher (List.replicate 20 3) key iv) key iv =
        some (List.replicate 20 3) ∧
    P115.Cipher.aesCbcDecrypt blockCipher
      (P115.Cipher.aesCbcEncrypt blockCipher (List.replicate 15 0 ++ [1]) key iv) key iv ≠
        some (List.replicate 15 0 ++ [1]) := by
  intro key iv
  have hiff := fun data => @P115.Cipher.aesCbcDecrypt_iff blockCipher inverts_blockCipher
    key iv (by decide) (by decide) data
  refine ⟨(hiff _).mpr fun h => absurd h.1 (by decide), fun h => (hiff _).mp h ⟨by decide, .inr ?_⟩⟩
  exact ⟨List.replicate 15 0, 1, by decide, by decide, rfl⟩

end AllInOneBackup.Cloud123.Pan115
