import AllInOneBackup.Kurigram.Crypto.Aes

/-! On whole blocks `ige` computes the chain of blocks and never raises, and its two directions
undo each other. -/

namespace AllInOneBackup.Kurigram.Aes

open Bytes Garble

/-! ### Blocks -/

/-- `xor` of two blocks. -/
def xorBlock (x y : Block 16) : Block 16 := Block.ofNat (x.value ^^^ y.value)

theorem value_xor_lt (x y : Block 16) : x.value ^^^ y.value < 256 ^ 16 :=
  Nat.xor_lt_two_pow (n := 128) x.value_lt y.value_lt

theorem xor_toList (x y : Block 16) : xor x.toList y.toList = some (xorBlock x y).toList := by
  have hlt : ofBE x.toList ^^^ ofBE y.toList < 256 ^ x.toList.length := by
    rw [Vector.length_toList]
    exact value_xor_lt x y
  rw [xor, if_pos hlt, xorBlock, Block.toList_ofNat, Vector.length_toList]
  rfl

theorem xorBlock_xorBlock (x y : Block 16) : xorBlock (xorBlock x y) y = x := by
  rw [xorBlock, xorBlock, Block.value_ofNat (value_xor_lt x y), Nat.xor_assoc, Nat.xor_self,
    Nat.xor_zero, Block.ofNat_value]

theorem onBlock_toList (f : Block 16 → Block 16) (x : Block 16) :
    onBlock f x.toList = some (f x).toList := by
  rw [onBlock, Block.ofBytes_toList, Option.map_some]

/-- Encryption of whole blocks never raises and computes their chain. -/
theorem igeLoop_encrypt (cipher : Cipher) (a b : Block 16) (xs : List (Block 16)) :
    igeLoop cipher true a.toList b.toList (xs.map Vector.toList) =
      some ((chainEncrypt xorBlock cipher.encrypt a b xs).map Vector.toList) := by
  induction xs generalizing a b with
  | nil => rfl
  | cons x xs ih =>
    rw [List.map_cons, igeLoop, if_pos rfl]
    simp only [xor_toList, onBlock_toList, Option.bind_eq_bind, Option.bind_some, ih]
    rfl

theorem igeLoop_decrypt (cipher : Cipher) (a b : Block 16) (cs : List (Block 16)) :
    igeLoop cipher false a.toList b.toList (cs.map Vector.toList) =
      some ((chainDecrypt xorBlock cipher.decrypt a b cs).map Vector.toList) := by
  induction cs generalizing a b with
  | nil => rfl
  | cons c cs ih =>
    rw [List.map_cons, igeLoop, if_neg Bool.false_ne_true]
    simp only [xor_toList, onBlock_toList, Option.bind_eq_bind, Option.bind_some, ih]
    rfl

/-- Some bytes, as whole blocks. -/
def ofBlocks (xs : List (Block 16)) : Bytes := (xs.map Vector.toList).flatten

theorem length_ofBlocks (xs : List (Block 16)) : (ofBlocks xs).length = 16 * xs.length := by
  induction xs with
  | nil => rfl
  | cons x xs ih =>
    have hcons : ofBlocks (x :: xs) = x.toList ++ ofBlocks xs := rfl
    rw [hcons, List.length_append, Vector.length_toList, ih, List.length_cons]
    omega

theorem exists_ofBlocks {data : Bytes} (h : 16 ∣ data.length) : ∃ xs, data = ofBlocks xs := by
  obtain ⟨k, hk⟩ := h
  induction k generalizing data with
  | zero => exact ⟨[], List.length_eq_zero_iff.mp hk⟩
  | succ k ih =>
    have hlen : (data.take 16).length = 16 := by rw [List.length_take]; omega
    obtain ⟨x, hx⟩ := Block.eq_toList_of_length hlen
    obtain ⟨xs, hxs⟩ := @ih (data.drop 16) (by rw [List.length_drop]; omega)
    refine ⟨x :: xs, ?_⟩
    have hcons : ofBlocks (x :: xs) = x.toList ++ ofBlocks xs := rfl
    rw [hcons, ← hx, ← hxs, List.take_append_drop]

theorem pieces_ofBlocks (xs : List (Block 16)) :
    Chunked.pieces 16 (ofBlocks xs) = xs.map Vector.toList := by
  apply Chunked.pieces_flatten (by decide)
  intro x hx
  obtain ⟨block, -, rfl⟩ := List.mem_map.mp hx
  exact Vector.length_toList

section Directions

variable (aes : Bytes → Cipher) (key : Bytes) (a b : Block 16) (xs : List (Block 16))

theorem take_iv : (a.toList ++ b.toList).take 16 = a.toList :=
  List.take_left' Vector.length_toList

theorem drop_iv : (a.toList ++ b.toList).drop 16 = b.toList :=
  List.drop_left' Vector.length_toList

theorem ige_encrypt :
    ige aes (ofBlocks xs) key (a.toList ++ b.toList) true =
      some (ofBlocks (chainEncrypt xorBlock (aes key).encrypt a b xs)) := by
  rw [ige, take_iv, drop_iv, pieces_ofBlocks, igeLoop_encrypt, Option.map_some]
  rfl

theorem ige_decrypt :
    ige aes (ofBlocks xs) key (a.toList ++ b.toList) false =
      some (ofBlocks (chainDecrypt xorBlock (aes key).decrypt a b xs)) := by
  rw [ige, take_iv, drop_iv, pieces_ofBlocks, igeLoop_decrypt, Option.map_some]
  rfl

end Directions

theorem exists_iv {iv : Bytes} (h : iv.length = 32) :
    ∃ a b : Block 16, iv = a.toList ++ b.toList := by
  have htake : (iv.take 16).length = 16 := by rw [List.length_take]; omega
  have hdrop : (iv.drop 16).length = 16 := by rw [List.length_drop]; omega
  obtain ⟨a, ha⟩ := Block.eq_toList_of_length htake
  obtain ⟨b, hb⟩ := Block.eq_toList_of_length hdrop
  exact ⟨a, b, by rw [← ha, ← hb, List.take_append_drop]⟩

/-- Where decryption inverts encryption on blocks, the two directions of `ige` invert each other
and keep the length. -/
theorem ige_round_trip (aes : Bytes → Cipher) (key iv data : Bytes)
    (hkey : ∀ x, (aes key).decrypt ((aes key).encrypt x) = x) (hiv : iv.length = 32)
    (hdata : 16 ∣ data.length) :
    (∃ c, ige aes data key iv true = some c ∧ c.length = data.length ∧
      ige aes c key iv false = some data) ∧
    (∃ p, ige aes data key iv false = some p ∧ p.length = data.length ∧
      ige aes p key iv true = some data) := by
  obtain ⟨a, b, rfl⟩ := exists_iv hiv
  obtain ⟨xs, rfl⟩ := exists_ofBlocks hdata
  have hleft : Function.LeftInverse (aes key).decrypt (aes key).encrypt := hkey
  -- There are finitely many blocks, so the injective `encrypt` is onto.
  have hright : Function.RightInverse (aes key).decrypt (aes key).encrypt :=
    hleft.rightInverse_of_surjective (Finite.injective_iff_surjective.mp hleft.injective)
  constructor
  · refine ⟨_, ige_encrypt aes key a b xs, ?_, ?_⟩
    · rw [length_ofBlocks, length_chainEncrypt, length_ofBlocks]
    · rw [ige_decrypt, chainDecrypt_chainEncrypt xorBlock_xorBlock hleft]
  · refine ⟨_, ige_decrypt aes key a b xs, ?_, ?_⟩
    · rw [length_ofBlocks, length_chainDecrypt, length_ofBlocks]
    · rw [ige_encrypt, chainEncrypt_chainDecrypt xorBlock_xorBlock hright]

/-- The zero block, and its encryption by AES with the 256-bit zero key. -/
def zeroBlock : Block 16 := Block.ofNat 0

def zeroEncrypted : Block 16 := Block.ofNat 0xdc95c078a2408989ad48a21492842087

/-- A block cipher with that pair in it. -/
def zeroKey : Cipher :=
  let f := fun x => if x = zeroBlock then zeroEncrypted else if x = zeroEncrypted then zeroBlock else x
  ⟨f, f⟩

theorem ige_round_trip_zeros :
    (∀ x, zeroKey.decrypt (zeroKey.encrypt x) = x) ∧
      ∃ c, ige (fun _ => zeroKey) (List.replicate 16 0) (List.replicate 32 0)
          (List.replicate 32 0) true = some c ∧
        ige (fun _ => zeroKey) c (List.replicate 32 0) (List.replicate 32 0) false =
          some (List.replicate 16 0) := by
  have hkey : ∀ x, zeroKey.decrypt (zeroKey.encrypt x) = x := by
    intro x
    simp only [zeroKey]
    split_ifs with hx hx' hne <;> simp_all
  obtain ⟨⟨c, henc, -, hdec⟩, -⟩ := ige_round_trip (fun _ => zeroKey) (List.replicate 32 0)
    (List.replicate 32 0) (List.replicate 16 0) hkey List.length_replicate ⟨1, List.length_replicate⟩
  exact ⟨hkey, c, henc, hdec⟩

end AllInOneBackup.Kurigram.Aes
