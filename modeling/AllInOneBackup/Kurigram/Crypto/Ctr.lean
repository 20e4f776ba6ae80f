import AllInOneBackup.Kurigram.Crypto.Aes
import Mathlib.Tactic.Ring

/-! The bytes of `ctr` and the counter after it depend only on the number of bytes before, so a
stream may be cut anywhere. -/

namespace AllInOneBackup.Kurigram.Aes

open Bytes

/-! ### The counter -/

theorem two_pow_128 : 2 ^ 128 = 256 ^ 16 := by norm_num

theorem value_increment (k : ℕ) (h : k ≤ 16) (iv : Block 16) :
    (increment k h iv).value ≡ iv.value + 256 ^ (16 - k) [MOD 256 ^ 16] := by
  induction k generalizing iv with
  | zero => exact (Nat.add_modEq_right (n := 256 ^ 16)).symm
  | succ k ih =>
    have hplace : 16 - (k + 1) = 16 - 1 - k := by omega
    have hbyte := iv[k].toNat_lt
    rw [increment]
    split_ifs with hfits
    · have hset := Block.value_set iv h (iv[k] + 1)
      have hnext : (iv[k] + 1).toNat = iv[k].toNat + 1 := by
        rw [UInt8.toNat_add]
        exact Nat.mod_eq_of_lt hfits
      rw [hnext, Nat.mul_succ] at hset
      rw [hplace, show Block.value (iv.set k (iv[k] + 1)) = iv.value + 256 ^ (16 - 1 - k) by omega]
    · have hset := Block.value_set iv h 0
      have hfull : iv[k].toNat = 255 := by omega
      have hcarry : 256 ^ (16 - k) = 256 * 256 ^ (16 - 1 - k) := by
        rw [← pow_succ']
        congr 1
        omega
      rw [hfull] at hset
      have hsum : Block.value (iv.set k 0) + 256 ^ (16 - k) = iv.value + 256 ^ (16 - 1 - k) := by
        rw [hcarry]
        simp only [UInt8.toNat_zero] at hset
        omega
      rw [hplace, ← hsum]
      exact ih _ _

/-- The carry loop adds one to the counter, modulo 2 ^ 128. -/
theorem increment_eq (iv : Block 16) :
    increment 16 le_rfl iv = Block.ofNat ((iv.value + 1) % 2 ^ 128) := by
  have hmod : (increment 16 le_rfl iv).value % 256 ^ 16 = (iv.value + 1) % 256 ^ 16 :=
    value_increment 16 le_rfl iv
  rw [Nat.mod_eq_of_lt (Block.value_lt _)] at hmod
  rw [← Block.ofNat_value (increment 16 le_rfl iv), hmod, two_pow_128]

namespace Counter

/-- The counter after `n` bytes. -/
def after (c : Counter) (n : ℕ) : Counter :=
  ⟨Block.ofNat ((c.iv.value + (c.state + n) / 16) % 2 ^ 128),
    ⟨(c.state + n) % 16, Nat.mod_lt _ (by decide)⟩⟩

theorem value_after (c : Counter) (n : ℕ) :
    (c.after n).iv.value = (c.iv.value + (c.state + n) / 16) % 2 ^ 128 :=
  Block.value_ofNat (two_pow_128 ▸ Nat.mod_lt _ (by decide))

/-- The counter block of byte `m + n`, from the one of byte `m`. -/
theorem block_add (v s m n M : ℕ) :
    ((v + (s + m) / 16) % M + ((s + m) % 16 + n) / 16) % M = (v + (s + (m + n)) / 16) % M := by
  rw [Nat.mod_add_mod]
  congr 1
  omega

@[simp] theorem after_zero (c : Counter) : c.after 0 = c := by
  have hstate := c.state.isLt
  have hiv : c.iv.value % 2 ^ 128 = c.iv.value := Nat.mod_eq_of_lt (two_pow_128 ▸ c.iv.value_lt)
  have hblock : (c.after 0).iv = c.iv := by
    apply Block.value_injective
    rw [value_after, Nat.add_zero, Nat.div_eq_of_lt hstate, Nat.add_zero, hiv]
  have hoffset : (c.after 0).state = c.state := Fin.ext (Nat.mod_eq_of_lt hstate)
  exact congrArg₂ Counter.mk hblock hoffset

theorem after_add (c : Counter) (m n : ℕ) : c.after (m + n) = (c.after m).after n := by
  have hblock : (c.after (m + n)).iv = ((c.after m).after n).iv := by
    apply Block.value_injective
    rw [value_after, value_after, value_after]
    exact (block_add _ _ _ _ _).symm
  have hoffset : (c.after (m + n)).state = ((c.after m).after n).state := by
    apply Fin.ext
    change (c.state.val + (m + n)) % 16 = ((c.state.val + m) % 16 + n) % 16
    omega
  exact congrArg₂ Counter.mk hblock hoffset

/-- Within a block only the offset moves. -/
theorem after_one_of_lt (c : Counter) (h : c.state.val + 1 < 16) :
    c.after 1 = ⟨c.iv, ⟨c.state + 1, h⟩⟩ := by
  have hiv : c.iv.value % 2 ^ 128 = c.iv.value := Nat.mod_eq_of_lt (two_pow_128 ▸ c.iv.value_lt)
  have hblock : (c.after 1).iv = c.iv := by
    apply Block.value_injective
    rw [value_after, Nat.div_eq_of_lt h, Nat.add_zero, hiv]
  exact congrArg₂ Counter.mk hblock (Fin.ext (Nat.mod_eq_of_lt h))

/-- Behind the last byte of a block comes the next one. -/
theorem after_one_of_not_lt (c : Counter) (h : ¬c.state.val + 1 < 16) :
    c.after 1 = ⟨increment 16 le_rfl c.iv, 0⟩ := by
  have hlast : c.state.val + 1 = 16 := by omega
  have hblock : (c.after 1).iv = increment 16 le_rfl c.iv := by
    rw [increment_eq]
    apply Block.value_injective
    rw [value_after, hlast]
    exact (Block.value_ofNat (two_pow_128 ▸ Nat.mod_lt _ (by decide))).symm
  have hoffset : (c.after 1).state = 0 := by
    apply Fin.ext
    change (c.state.val + 1) % 16 = 0
    rw [hlast]
  exact congrArg₂ Counter.mk hblock hoffset

end Counter

/-! ### The loops -/

/-- The variables of `ctr` between two bytes. -/
def running (cipher : Cipher) (c : Counter) (out : Bytes) : Running :=
  { c with chunk := cipher.encrypt c.iv, out }

/-- The byte of the key stream at the counter. -/
def Counter.keyByte (cipher : Cipher) (c : Counter) : UInt8 := (cipher.encrypt c.iv)[c.state]

/-- The byte of the key stream `i` bytes behind the counter. -/
def keyByte (cipher : Cipher) (c : Counter) (i : ℕ) : UInt8 :=
  (cipher.encrypt (Block.ofNat ((c.iv.value + (c.state + i) / 16) % 2 ^ 128)))[(c.state + i) % 16]

theorem keyByte_eq (cipher : Cipher) (c : Counter) (i : ℕ) :
    keyByte cipher c i = (c.after i).keyByte cipher := rfl

theorem ctrByte_running (cipher : Cipher) (c : Counter) (out : Bytes) (b : UInt8) :
    ctrByte cipher (running cipher c out) b =
      running cipher (c.after 1) (out ++ [b ^^^ keyByte cipher c 0]) := by
  rw [keyByte_eq, Counter.after_zero]
  by_cases h : c.state.val + 1 < 16
  · have hne : (⟨c.state + 1, h⟩ : Fin 16) ≠ 0 := Fin.ne_of_val_ne (Nat.succ_ne_zero _)
    rw [c.after_one_of_lt h]
    simp only [ctrByte, running, h, ↓reduceDIte, hne, ↓reduceIte]
    rfl
  · rw [c.after_one_of_not_lt h]
    simp only [ctrByte, running, h, ↓reduceDIte, ↓reduceIte]
    rfl

theorem foldl_ctrByte (cipher : Cipher) (c : Counter) (out data : Bytes) :
    data.foldl (ctrByte cipher) (running cipher c out) =
      running cipher (c.after data.length)
        (out ++ data.mapIdx fun i b => b ^^^ keyByte cipher c i) := by
  induction data generalizing c out with
  | nil => rw [List.foldl_nil, List.length_nil, Counter.after_zero, List.mapIdx_nil, List.append_nil]
  | cons b data ih =>
    have hkey : ∀ i, keyByte cipher (c.after 1) i = keyByte cipher c (i + 1) := by
      intro i
      rw [keyByte_eq, keyByte_eq, ← Counter.after_add, Nat.add_comm]
    rw [List.foldl_cons, ctrByte_running, ih, ← Counter.after_add, List.length_cons,
      Nat.add_comm data.length, List.mapIdx_cons, List.append_assoc]
    simp only [hkey, List.singleton_append]

/-- Some bytes under the key stream. -/
def keyed (cipher : Cipher) (c : Counter) (data : Bytes) : Bytes :=
  data.mapIdx fun i b => b ^^^ keyByte cipher c i

variable (aes : Bytes → Cipher) (key : Bytes) (c : Counter)

@[simp] theorem length_keyed (cipher : Cipher) (data : Bytes) :
    (keyed cipher c data).length = data.length := List.length_mapIdx

theorem keyed_append (cipher : Cipher) (xs ys : Bytes) :
    keyed cipher c (xs ++ ys) = keyed cipher c xs ++ keyed cipher (c.after xs.length) ys := by
  have hkey : ∀ i, keyByte cipher (c.after xs.length) i = keyByte cipher c (i + xs.length) := by
    intro i
    rw [keyByte_eq, keyByte_eq, ← Counter.after_add, Nat.add_comm]
  rw [keyed, keyed, keyed, List.mapIdx_append]
  simp only [hkey]

/-- The key stream taken twice cancels. -/
theorem keyed_keyed (cipher : Cipher) (data : Bytes) :
    keyed cipher c (keyed cipher c data) = data := by
  have hcancel : (fun (i : ℕ) (b : UInt8) => b ^^^ keyByte cipher c i ^^^ keyByte cipher c i) =
      fun _ b => b := by
    funext i b
    rw [UInt8.xor_assoc, UInt8.xor_self, UInt8.xor_zero]
  rw [keyed, keyed, List.mapIdx_mapIdx]
  change data.mapIdx (fun i b => b ^^^ keyByte cipher c i ^^^ keyByte cipher c i) = data
  rw [hcancel, List.mapIdx_eq_zipIdx_map]
  simp

/-- One call: its bytes, and where it leaves the counter. -/
theorem ctr_eq (data : Bytes) :
    ctr aes data key c = (keyed (aes key) c data, c.after data.length) := by
  have hctr : ctr aes data key c =
      let r := (Chunked.pieces 16 data).foldl (fun r piece => piece.foldl (ctrByte (aes key)) r)
        (running (aes key) c [])
      (r.out, r.toCounter) := rfl
  rw [hctr, ← List.foldl_flatten, Chunked.flatten_pieces (by decide), foldl_ctrByte,
    List.nil_append]
  rfl

theorem ctrs_eq (pieces : List Bytes) :
    (ctrs aes key c pieces).1.flatten = keyed (aes key) c pieces.flatten := by
  induction pieces generalizing c with
  | nil => rfl
  | cons data pieces ih =>
    rw [ctrs, ctr_eq, List.flatten_cons, ih, List.flatten_cons, keyed_append]

/-- However a stream is cut, its calls put out what one call puts out; byte `i` is encrypted with
the block of its place behind the counter; and calls from the same counter on any cutting of the
output put out the stream. -/
theorem ctr_streams (pieces : List Bytes) :
    (ctrs aes key c pieces).1.flatten = (ctr aes pieces.flatten key c).1 ∧
      (ctr aes pieces.flatten key c).1 = (pieces.flatten.mapIdx fun i b => b ^^^
        ((aes key).encrypt (Block.ofNat ((c.iv.value + (c.state + i) / 16) % 2 ^ 128)))[
          (c.state + i) % 16]) ∧
      ∀ others : List Bytes, others.flatten = (ctr aes pieces.flatten key c).1 →
        (ctrs aes key c others).1.flatten = pieces.flatten := by
  rw [ctrs_eq, ctr_eq]
  refine ⟨rfl, rfl, fun others hcut => ?_⟩
  rw [ctrs_eq, hcut, keyed_keyed]

/-- AES-256 under one key, at two blocks of the counter. -/
def sampleCipher : Cipher where
  encrypt x :=
    if x.value = 0xf0f1f2f3f4f5f6f7f8f9fafbfcfdfeff then
      Block.ofNat 0x0bdf7df1591716335e9a8b15c860c502
    else if x.value = 0xf0f1f2f3f4f5f6f7f8f9fafbfcfdff00 then
      Block.ofNat 0x5a6e699d536119065433863c8f657b94
    else x
  decrypt x := x

def sampleKey : Bytes :=
  beBytes 32 0x603deb1015ca71be2b73aef0857d77811f352c073b6108d72d9810a30914dff4

def sampleCounter : Counter := ⟨Block.ofNat 0xf0f1f2f3f4f5f6f7f8f9fafbfcfdfeff, 0⟩

/-- Twenty bytes go out in two calls and come in in three, one of which reaches into the second
block. -/
theorem ctr_streams_cut :
    (ctrs (fun _ => sampleCipher) sampleKey sampleCounter
      [beBytes 10 0x6bc1bee22e409f96e93d, beBytes 10 0x7e117393172aae2d8a57]).1.flatten =
        beBytes 20 0x601ec313775789a5b7a7f504bbf3d228f443e3ca ∧
    (ctrs (fun _ => sampleCipher) sampleKey sampleCounter
      [beBytes 3 0x601ec3, beBytes 15 0x13775789a5b7a7f504bbf3d228f443, beBytes 2 0xe3ca]).1.flatten =
        beBytes 20 0x6bc1bee22e409f96e93d7e117393172aae2d8a57 := by
  have h := ctr_streams (fun _ => sampleCipher) sampleKey sampleCounter
    [beBytes 10 0x6bc1bee22e409f96e93d, beBytes 10 0x7e117393172aae2d8a57]
  refine ⟨by decide +kernel, (h.2.2 _ ?_).trans (by decide)⟩
  decide +kernel

end AllInOneBackup.Kurigram.Aes
