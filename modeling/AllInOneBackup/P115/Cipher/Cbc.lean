import AllInOneBackup.Data.Bytes
import AllInOneBackup.P115.Cipher.Xor

/-! The pure Python CBC. Data that already fills its last block is not padded, so what is stripped
after the decryption is told from the data itself. -/

namespace AllInOneBackup.P115.Cipher

open Bytes Chunked

/-! ### Model -/

/-- `AES(key)`: what it does to a block. -/
structure AES where
  encrypt : Bytes → Bytes
  decrypt : Bytes → Bytes

/-- `-len(data) & 15`. -/
def padSize (data : Bytes) : ℕ := (-(data.length : ℤ) % 16).toNat

def pad (data : Bytes) : Bytes :=
  if padSize data ≠ 0 then data ++ List.replicate (padSize data) (UInt8.ofNat (padSize data))
  else data

/-- `_unpad`; without a last byte it raises. -/
def unpad (data : Bytes) : Option Bytes :=
  data.getLast?.map fun size =>
    if 0 < size ∧ size < 16 ∧ (data.drop (data.length - size.toNat)).all (· = size) then
      data.take (data.length - size.toNat)
    else data

/-- The loop of `aes_cbc_encrypt`, with the blocks that are left. -/
def cbcEncrypt (encrypt : Bytes → Bytes) : Bytes → List Bytes → List Bytes
  | _, [] => []
  | lastCipher, p :: view =>
    let lastCipher := encrypt (List.zipWith (· ^^^ ·) p lastCipher)
    lastCipher :: cbcEncrypt encrypt lastCipher view

/-- The loop of `aes_cbc_decrypt`. -/
def cbcDecrypt (decrypt : Bytes → Bytes) : Bytes → List Bytes → List Bytes
  | _, [] => []
  | lastCipher, c :: view =>
    List.zipWith (· ^^^ ·) (decrypt c) lastCipher :: cbcDecrypt decrypt c view

variable (aes : Bytes → AES)

def aesCbcEncrypt (data aesKey aesIv : Bytes) : Bytes :=
  (cbcEncrypt (aes aesKey).encrypt aesIv (pieces 16 (pad data))).flatten

def aesCbcDecrypt (cipherData aesKey aesIv : Bytes) : Option Bytes :=
  unpad (cbcDecrypt (aes aesKey).decrypt aesIv (pieces 16 cipherData)).flatten

/-- Decryption undoes encryption, on blocks and under keys of 16 bytes. -/
def Inverts : Prop := ∀ key x : Bytes, key.length = 16 → x.length = 16 →
  ((aes key).encrypt x).length = 16 ∧ (aes key).decrypt ((aes key).encrypt x) = x

/-- The last byte counts how often it stands at the end, as padding does. -/
def EndsAsPadding (data : Bytes) : Prop :=
  ∃ front : Bytes, ∃ p < 16, 0 < p ∧ data = front ++ List.replicate p (UInt8.ofNat p)

/-! ### Padding -/

theorem padSize_eq_zero_iff (data : Bytes) : padSize data = 0 ↔ 16 ∣ data.length := by
  rw [padSize]
  omega

theorem dvd_length_pad (data : Bytes) : 16 ∣ (pad data).length := by
  have hsize : 16 ∣ data.length + padSize data := by
    rw [padSize]
    omega
  rw [pad]
  split_ifs with hne
  · rwa [List.length_append, List.length_replicate]
  · rwa [not_not.mp hne] at hsize

/-- What ends as padding loses it. -/
theorem unpad_append {p : ℕ} (hpos : 0 < p) (hlt : p < 16) (front : Bytes) :
    unpad (front ++ List.replicate p (UInt8.ofNat p)) = some front := by
  have hnat : (UInt8.ofNat p).toNat = p := by
    rw [UInt8.toNat_ofNat']
    omega
  have hlast : (front ++ List.replicate p (UInt8.ofNat p)).getLast? = some (UInt8.ofNat p) := by
    obtain ⟨k, rfl⟩ := Nat.exists_eq_add_of_lt hpos
    rw [List.getLast?_append, List.getLast?_replicate]
    simp
  have hfront : (front ++ List.replicate p (UInt8.ofNat p)).length - p = front.length := by simp
  have hbound : 0 < UInt8.ofNat p ∧ UInt8.ofNat p < 16 := by
    rw [UInt8.lt_iff_toNat_lt, UInt8.lt_iff_toNat_lt, hnat]
    exact ⟨hpos, hlt⟩
  rw [unpad, hlast, Option.map_some, hnat, hfront, List.drop_left, List.take_left,
    if_pos ⟨hbound.1, hbound.2, by simp⟩]

/-- Data as long as a block is left as it is otherwise. -/
theorem unpad_eq_self {data : Bytes} (h : ¬EndsAsPadding data) (hlen : 16 ≤ data.length) :
    unpad data = some data := by
  have hne : data ≠ [] := fun hnil => by simp [hnil] at hlen
  obtain ⟨front, b, rfl⟩ := (List.eq_nil_or_concat' data).resolve_left hne
  rw [unpad, List.getLast?_concat, Option.map_some, if_neg]
  rintro ⟨hpos, hlt, hall⟩
  rw [UInt8.lt_iff_toNat_lt] at hpos hlt
  simp only [List.all_eq_true, decide_eq_true_eq] at hall
  refine h ⟨(front ++ [b]).take ((front ++ [b]).length - b.toNat), b.toNat, hlt, hpos, ?_⟩
  have hcount : ((front ++ [b]).drop ((front ++ [b]).length - b.toNat)).length = b.toNat := by
    have hsmall : b.toNat < 16 := hlt
    rw [List.length_drop]
    omega
  rw [UInt8.ofNat_toNat, ← List.eq_replicate_iff.mpr ⟨hcount, hall⟩, List.take_append_drop]

theorem unpad_pad_iff (data : Bytes) :
    unpad (pad data) = some data ↔ ¬(16 ∣ data.length ∧ (data = [] ∨ EndsAsPadding data)) := by
  by_cases hsize : padSize data = 0
  · have hdvd := (padSize_eq_zero_iff data).mp hsize
    rw [pad, if_neg (not_not.mpr hsize), not_and]
    constructor
    · rintro hself - (rfl | ⟨front, p, hlt, hpos, rfl⟩)
      · cases hself
      · rw [unpad_append hpos hlt] at hself
        have hlen := congrArg List.length (Option.some.inj hself)
        rw [List.length_append, List.length_replicate] at hlen
        omega
    · intro h
      obtain ⟨hne, hends⟩ := not_or.mp (h hdvd)
      exact unpad_eq_self hends (Nat.le_of_dvd (List.length_pos_iff.mpr hne) hdvd)
  · have hbound : padSize data < 16 := by
      rw [padSize]
      omega
    rw [pad, if_pos hsize, unpad_append (Nat.pos_of_ne_zero hsize) hbound]
    exact iff_of_true rfl fun h => hsize ((padSize_eq_zero_iff data).mpr h.1)

/-! ### Chains -/

variable {aes}

theorem cbcDecrypt_cbcEncrypt (h : Inverts aes) {key : Bytes} (hkey : key.length = 16)
    {blocks : List Bytes} (hblocks : ∀ p ∈ blocks, p.length = 16) {lastCipher : Bytes}
    (hlast : lastCipher.length = 16) :
    (∀ c ∈ cbcEncrypt (aes key).encrypt lastCipher blocks, c.length = 16) ∧
      cbcDecrypt (aes key).decrypt lastCipher (cbcEncrypt (aes key).encrypt lastCipher blocks) =
        blocks := by
  induction blocks generalizing lastCipher with
  | nil => simp [cbcEncrypt, cbcDecrypt]
  | cons p blocks ih =>
    obtain ⟨hp, hblocks⟩ := List.forall_mem_cons.mp hblocks
    have hinput : (List.zipWith (· ^^^ ·) p lastCipher).length = 16 := by simp [hp, hlast]
    obtain ⟨hlen, hinverse⟩ := h key _ hkey hinput
    obtain ⟨hlens, hrest⟩ := ih hblocks hlen
    constructor
    · exact List.forall_mem_cons.mpr ⟨hlen, hlens⟩
    · rw [cbcEncrypt, cbcDecrypt, hinverse, hrest, zipWith_xor_zipWith_xor (by omega)]

theorem aesCbcDecrypt_aesCbcEncrypt (h : Inverts aes) {aesKey aesIv : Bytes}
    (hkey : aesKey.length = 16) (hiv : aesIv.length = 16) (data : Bytes) :
    aesCbcDecrypt aes (aesCbcEncrypt aes data aesKey aesIv) aesKey aesIv = unpad (pad data) := by
  have hpieces := length_eq_of_mem_pieces (by decide) (dvd_length_pad data)
  obtain ⟨hlens, hchain⟩ := cbcDecrypt_cbcEncrypt h hkey hpieces hiv
  rw [aesCbcDecrypt, aesCbcEncrypt, pieces_flatten (by decide) hlens, hchain,
    flatten_pieces (by decide)]

/-- The data comes back unless it fills its blocks and is empty or ends as padding does. -/
theorem aesCbcDecrypt_iff (h : Inverts aes) {aesKey aesIv : Bytes}
    (hkey : aesKey.length = 16) (hiv : aesIv.length = 16) (data : Bytes) :
    aesCbcDecrypt aes (aesCbcEncrypt aes data aesKey aesIv) aesKey aesIv = some data ↔
      ¬(16 ∣ data.length ∧ (data = [] ∨ EndsAsPadding data)) := by
  rw [aesCbcDecrypt_aesCbcEncrypt h hkey hiv, unpad_pad_iff]

/-- One block that ends in a one. -/
theorem aesCbcDecrypt_strips : ¬∀ aes, Inverts aes → ∀ aesKey aesIv data : Bytes,
    aesKey.length = 16 → aesIv.length = 16 →
      aesCbcDecrypt aes (aesCbcEncrypt aes data aesKey aesIv) aesKey aesIv = some data := by
  intro h
  have hinverts : Inverts fun _ => ⟨id, id⟩ := fun _ _ _ hx => ⟨hx, rfl⟩
  have hback := h _ hinverts (List.replicate 16 0) (List.replicate 16 0)
    (List.replicate 15 0 ++ [1]) (by decide) (by decide)
  exact absurd hback (by decide +kernel)

end AllInOneBackup.P115.Cipher
