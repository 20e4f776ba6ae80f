import AllInOneBackup.Data.Struct
import AllInOneBackup.Kurigram.Crypto.Ctr
import AllInOneBackup.Kurigram.Raw.Core

/-! The obfuscated2 header. The keys come from the bytes 8 to 55 of a random nonce, which stay in
the header as they are; the last eight bytes carry the tag and the data center, encrypted at their
place in the key stream. SHA-256 is an arbitrary function, AES an arbitrary cipher. -/

namespace AllInOneBackup.Kurigram.Obfuscated2

open Bytes Aes

/-- `HEAD`, `POST`, `GET `, `OPTI`, two framing tags and a TLS record. -/
def reservedPrefixes : List Bytes :=
  [[0x48, 0x45, 0x41, 0x44], [0x50, 0x4F, 0x53, 0x54], [0x47, 0x45, 0x54, 0x20],
    [0x4F, 0x50, 0x54, 0x49], [0xDD, 0xDD, 0xDD, 0xDD], [0xEE, 0xEE, 0xEE, 0xEE],
    [0x16, 0x03, 0x01, 0x02]]

def secretSize : ℕ := 16

def obfuscateTagSize : ℕ := 4

/-- `os.urandom(64)` is drawn until a nonce is accepted; `none` where no draw of them is. -/
def generateObfuscated2Nonce (reservedPrefixes : List Bytes) : List (Block 64) → Option Bytes
  | [] => none
  | draw :: draws =>
    let nonce := draw.toList
    if nonce.head? ≠ some 0xEF ∧ nonce.take 4 ∉ reservedPrefixes ∧
        nonce.extract 4 8 ≠ [0, 0, 0, 0] then
      some nonce
    else generateObfuscated2Nonce reservedPrefixes draws

/-- The key, and the bytearrays that the calls share. -/
structure CipherArgs where
  key : Bytes
  counter : Counter
  deriving DecidableEq

/-- `(key, iv, bytearray(1))`; on an iv of another length the cipher would raise. -/
def CipherArgs.fresh (key iv : Bytes) : Except Exc CipherArgs :=
  match Block.ofBytes iv with
  | some iv => .ok { key, counter := ⟨iv, 0⟩ }
  | none => .error (.other "initialization vector must be 16 bytes")

/-- `xs[i:j] = ys`. -/
def setSlice (xs : Bytes) (i j : ℕ) (ys : Bytes) : Bytes := xs.take i ++ ys ++ xs.drop j

structure Obfuscated2Header where
  header : Bytes
  encrypt : CipherArgs
  decrypt : CipherArgs

section Model

variable (sha256 : Bytes → Bytes) (aes : Bytes → Cipher)

def finalizeObfuscated2Tag (nonce : Bytes) (encrypt : CipherArgs) : Bytes × CipherArgs :=
  let (out, counter) := ctr aes nonce encrypt.key encrypt.counter
  (out.extract 56 64, { encrypt with counter })

/-- With the nonce that was generated. -/
def buildObfuscated2Header (nonce secret : Bytes) (dcId : ℤ) (obfuscateTag : Bytes) :
    Except Exc Obfuscated2Header := do
  if secret.length ≠ secretSize then
    throw (.valueError ("obfuscated2: secret must be exactly " ++ toString secretSize ++
      " bytes, got " ++ toString secret.length))
  if obfuscateTag.length ≠ obfuscateTagSize then
    throw (.valueError ("obfuscated2: obfuscate_tag must be exactly " ++
      toString obfuscateTagSize ++ " bytes"))
  let reversedTail := (nonce.extract 8 56).reverse
  let encryptKey := sha256 (nonce.extract 8 40 ++ secret)
  let encrypt ← CipherArgs.fresh encryptKey (nonce.extract 40 56)
  let decryptKey := sha256 (reversedTail.extract 0 32 ++ secret)
  let decrypt ← CipherArgs.fresh decryptKey (reversedTail.extract 32 48)
  let nonce := setSlice nonce 56 60 obfuscateTag
  match packSigned 2 dcId with
  | none => throw (.overflowError "int too big to convert")
  | some dc =>
    let nonce := setSlice nonce 60 62 dc
    let (last, encrypt) := finalizeObfuscated2Tag aes nonce encrypt
    return { header := setSlice nonce 56 64 last, encrypt, decrypt }

/-- What the peer derives from the bytes 8 to 55 of a header, or from the reversed ones. -/
def derive (secret tail : Bytes) : Except Exc CipherArgs :=
  CipherArgs.fresh (sha256 (tail.take 32 ++ secret)) (tail.drop 32)

/-- AES-CTR from the start of a stream: byte `i` is under the block of the counter `i / 16` behind
`iv`. -/
def ctrMode (cipher : Cipher) (iv : Block 16) (data : Bytes) : Bytes :=
  data.mapIdx fun i b =>
    b ^^^ (cipher.encrypt (Block.ofNat ((iv.value + i / 16) % 2 ^ 128)))[i % 16]

/-- The peer decrypts the header, finds the tag and the data center, and is then where the sender
is, four blocks behind the start; and what it derives for its own direction is what the sender
decrypts with. -/
structure PeerAgrees (secret : Bytes) (dcId : ℤ) (obfuscateTag : Bytes) (h : Obfuscated2Header) :
    Prop where
  length : h.header.length = 64
  decrypts : ∃ key iv, derive sha256 secret (h.header.extract 8 56) = .ok ⟨key, ⟨iv, 0⟩⟩ ∧
    (ctrMode (aes key) iv h.header).extract 56 60 = obfuscateTag ∧
    ofSignedLE ((ctrMode (aes key) iv h.header).extract 60 62) = dcId ∧
    h.encrypt = ⟨key, ⟨Block.ofNat ((iv.value + 4) % 2 ^ 128), 0⟩⟩ ∧
    ctr aes h.header key ⟨iv, 0⟩ = (ctrMode (aes key) iv h.header, h.encrypt.counter)
  replies : derive sha256 secret (h.header.extract 8 56).reverse = .ok h.decrypt

end Model

/-! ### Slices of known lengths -/

theorem extract_left {xs ys zs : Bytes} {i j : ℕ} (hi : xs.length = i) (hj : i + ys.length = j) :
    (xs ++ (ys ++ zs)).extract i j = ys := by
  subst hi hj
  simp

theorem setSlice_append {xs ys zs : Bytes} {i j : ℕ} (hi : xs.length = i)
    (hj : i + ys.length = j) (new : Bytes) :
    setSlice (xs ++ (ys ++ zs)) i j new = xs ++ (new ++ zs) := by
  subst hi hj
  have hdrop : (xs ++ (ys ++ zs)).drop (xs.length + ys.length) = zs := by
    rw [← List.append_assoc, ← List.length_append, List.drop_left]
  rw [setSlice, List.take_left, hdrop, List.append_assoc]

theorem exists_append {xs : Bytes} {n i : ℕ} (h : xs.length = n + i) :
    ∃ ys zs, xs = ys ++ zs ∧ ys.length = n ∧ zs.length = i := by
  refine ⟨xs.take n, xs.drop n, (List.take_append_drop n xs).symm, ?_, ?_⟩
  · rw [List.length_take]
    omega
  · rw [List.length_drop]
    omega

theorem length_of_generate {reservedPrefixes : List Bytes} {draws : List (Block 64)}
    {nonce : Bytes} (h : generateObfuscated2Nonce reservedPrefixes draws = some nonce) :
    nonce.length = 64 := by
  induction draws with
  | nil => exact nomatch h
  | cons draw draws ih =>
    rw [generateObfuscated2Nonce] at h
    split_ifs at h
    · rw [← Option.some.inj h, Vector.length_toList]
    · exact ih h

/-! ### The header -/

theorem fresh_eq (key : Bytes) {iv : Bytes} (h : iv.length = 16) :
    ∃ block, Block.ofBytes iv = some block ∧
      CipherArgs.fresh key iv = .ok { key, counter := ⟨block, 0⟩ } := by
  obtain ⟨block, rfl⟩ := Block.eq_toList_of_length h
  refine ⟨block, Block.ofBytes_toList block, ?_⟩
  rw [CipherArgs.fresh, Block.ofBytes_toList]

/-- A derived counter is at the start of its block. -/
theorem eq_of_fresh {key iv : Bytes} {c : CipherArgs} (h : CipherArgs.fresh key iv = .ok c) :
    ∃ block, c = ⟨key, ⟨block, 0⟩⟩ := by
  unfold CipherArgs.fresh at h
  split at h
  · exact ⟨_, (Except.ok.inj h).symm⟩
  · cases h

/-- From the start of a stream the key stream is that of AES-CTR. -/
theorem keyed_start (cipher : Cipher) (iv : Block 16) (data : Bytes) :
    keyed cipher ⟨iv, 0⟩ data = ctrMode cipher iv data := by
  simp only [keyed, keyByte, ctrMode, Fin.val_zero, Nat.zero_add]

/-- Four blocks are 64 bytes. -/
theorem after_four_blocks (iv : Block 16) :
    Counter.after ⟨iv, 0⟩ 64 = ⟨Block.ofNat ((iv.value + 4) % 2 ^ 128), 0⟩ := by
  simp only [Counter.after, Fin.val_zero, Nat.zero_add, Nat.reduceDiv, Nat.reduceMod]
  rfl

variable (sha256 : Bytes → Bytes) (aes : Bytes → Cipher)

/-- The header is the nonce up to byte 56, and behind it the end under the key stream. -/
theorem build_eq {head key iv old old' rest tag dc secret : Bytes} {dcId : ℤ}
    (hhead : head.length = 8) (hkey : key.length = 32) (hiv : iv.length = 16)
    (hold : old.length = 4) (hold' : old'.length = 2) (hrest : rest.length = 2)
    (hsecret : secret.length = secretSize) (htag : tag.length = obfuscateTagSize)
    (hdc : packSigned 2 dcId = some dc) : ∃ encrypt reply,
      derive sha256 secret (key ++ iv) = .ok encrypt ∧
      derive sha256 secret (key ++ iv).reverse = .ok reply ∧
      buildObfuscated2Header sha256 aes (head ++ (key ++ (iv ++ (old ++ (old' ++ rest))))) secret dcId
          tag =
        .ok {
          header := head ++ (key ++ iv) ++
            keyed (aes encrypt.key) (encrypt.counter.after 56) (tag ++ (dc ++ rest))
          encrypt := { encrypt with counter := encrypt.counter.after 64 }
          decrypt := reply } := by
  obtain ⟨hdclen, -⟩ := packSigned_eq_some hdc
  have htake : (key ++ iv).take 32 = key := by rw [← hkey, List.take_left]
  have hdrop : (key ++ iv).drop 32 = iv := by rw [← hkey, List.drop_left]
  have hreverse : (key ++ iv).reverse.length = 48 := by
    rw [List.length_reverse, List.length_append, hkey, hiv]
  have hrestIv : ((key ++ iv).reverse.drop 32).length = 16 := by rw [List.length_drop, hreverse]
  obtain ⟨block, -, hencrypt⟩ := fresh_eq (sha256 (key ++ secret)) hiv
  obtain ⟨block', -, hdecrypt⟩ := fresh_eq (sha256 ((key ++ iv).reverse.take 32 ++ secret)) hrestIv
  have hderive : derive sha256 secret (key ++ iv) = .ok ⟨sha256 (key ++ secret), ⟨block, 0⟩⟩ := by
    rw [derive, htake, hdrop]
    exact hencrypt
  refine ⟨_, _, hderive, hdecrypt, ?_⟩
  -- the slices of the nonce
  have htail : (head ++ (key ++ (iv ++ (old ++ (old' ++ rest))))).extract 8 56 = key ++ iv := by
    rw [← List.append_assoc key]
    exact extract_left hhead (by rw [List.length_append, hkey, hiv])
  have hkeySlice : (head ++ (key ++ (iv ++ (old ++ (old' ++ rest))))).extract 8 40 = key :=
    extract_left hhead (by rw [hkey])
  have hivSlice : (head ++ (key ++ (iv ++ (old ++ (old' ++ rest))))).extract 40 56 = iv := by
    rw [← List.append_assoc head]
    exact extract_left (by rw [List.length_append, hhead, hkey]) (by rw [hiv])
  have hreply : ((key ++ iv).reverse.extract 0 32) = (key ++ iv).reverse.take 32 := by simp
  have hreplyIv : ((key ++ iv).reverse.extract 32 48) = (key ++ iv).reverse.drop 32 := by
    rw [List.extract_eq_take_drop, List.take_of_length_le]
    rw [List.length_drop, hreverse]
  have hpre : (head ++ (key ++ iv)).length = 56 := by
    rw [List.length_append, List.length_append, hhead, hkey, hiv]
  have htagged : setSlice (head ++ (key ++ (iv ++ (old ++ (old' ++ rest))))) 56 60 tag =
      head ++ (key ++ iv) ++ tag ++ (old' ++ rest) := by
    have h := @setSlice_append _ _ (old' ++ rest) _ _ hpre (by rw [hold]) tag
    simpa only [List.append_assoc] using h
  have hnamed : setSlice (head ++ (key ++ iv) ++ tag ++ (old' ++ rest)) 60 62 dc =
      head ++ (key ++ iv) ++ (tag ++ (dc ++ rest)) := by
    have hnext : (head ++ (key ++ iv) ++ tag).length = 60 := by
      rw [List.length_append, hpre, htag]
      rfl
    have h := @setSlice_append _ _ rest _ _ hnext (by rw [hold']) dc
    rw [h, List.append_assoc]
  have hlast : (tag ++ (dc ++ rest)).length = 8 := by
    rw [List.length_append, List.length_append, htag, hdclen, hrest]
    rfl
  have hbuild : buildObfuscated2Header sha256 aes
      (head ++ (key ++ (iv ++ (old ++ (old' ++ rest))))) secret dcId tag =
        let last := finalizeObfuscated2Tag aes (head ++ (key ++ iv) ++ (tag ++ (dc ++ rest)))
          ⟨sha256 (key ++ secret), ⟨block, 0⟩⟩
        .ok {
          header := setSlice (head ++ (key ++ iv) ++ (tag ++ (dc ++ rest))) 56 64 last.1
          encrypt := last.2
          decrypt := ⟨sha256 ((key ++ iv).reverse.take 32 ++ secret), ⟨block', 0⟩⟩ } := by
    rw [buildObfuscated2Header, if_neg (not_not.mpr hsecret), if_neg (not_not.mpr htag)]
    dsimp only
    rw [htail, hkeySlice, hivSlice, hreply, hreplyIv, hencrypt, hdecrypt, htagged, hdc]
    dsimp only [bind, Except.bind]
    rw [hnamed]
    rfl
  have hfinal : (head ++ (key ++ iv) ++ (tag ++ (dc ++ rest))).length = 64 := by
    rw [List.length_append, hpre, hlast]
  have hend : finalizeObfuscated2Tag aes (head ++ (key ++ iv) ++ (tag ++ (dc ++ rest)))
      ⟨sha256 (key ++ secret), ⟨block, 0⟩⟩ =
        (keyed (aes (sha256 (key ++ secret))) (Counter.after ⟨block, 0⟩ 56) (tag ++ (dc ++ rest)),
          ⟨sha256 (key ++ secret), Counter.after ⟨block, 0⟩ 64⟩) := by
    have hend : 56 + (keyed (aes (sha256 (key ++ secret))) (Counter.after ⟨block, 0⟩ 56)
        (tag ++ (dc ++ rest))).length = 64 := by rw [length_keyed, hlast]
    have hextract := @extract_left _ _ [] _ _
      ((length_keyed ⟨block, 0⟩ (aes (sha256 (key ++ secret))) _).trans hpre) hend
    rw [List.append_nil] at hextract
    rw [finalizeObfuscated2Tag, ctr_eq]
    dsimp only
    rw [hfinal, keyed_append, hpre, hextract]
  rw [hbuild, hend]
  have hlength : 56 + (tag ++ (dc ++ rest)).length = 64 := by rw [hlast]
  have hset := @setSlice_append _ _ [] _ _ hpre hlength
    (keyed (aes (sha256 (key ++ secret))) (Counter.after ⟨block, 0⟩ 56) (tag ++ (dc ++ rest)))
  rw [List.append_nil, List.append_nil] at hset
  dsimp only
  rw [hset]

/-- A nonce of which the bytes 8 to 55 are their own reverse, so that there is one key. -/
def sampleNonce : Block 64 :=
  ⟨([1, 2, 3, 4, 5, 6, 7, 8] ++ List.replicate 56 0x11 : Bytes).toArray, rfl⟩

/-- SHA-256 at the bytes that are hashed, and AES-256 under that key at the blocks of the
counter. -/
def sampleSha256 (_ : Bytes) : Bytes :=
  beBytes 32 0x4fccfb2fcbcc9ca13ae7fb372e913a2cf7adfda9e92b4b8be9050edd20e96c36

def sampleAes (_ : Bytes) : Cipher where
  encrypt x :=
    if x.value = 0x11111111111111111111111111111111 then
      Block.ofNat 0xe10a7660b8c1edf695047f103990db0f
    else if x.value = 0x11111111111111111111111111111112 then
      Block.ofNat 0xe3eab388646de227c022b84b2c0d2e15
    else if x.value = 0x11111111111111111111111111111113 then
      Block.ofNat 0x5a6a26f9bcb1856747d52b4e4dd5e0bb
    else if x.value = 0x11111111111111111111111111111114 then
      Block.ofNat 0xd561854b45f7a51083cc3ecf53cc7998
    else if x.value = 0x11111111111111111111111111111115 then
      Block.ofNat 0x4b8d33baa8b412069813cb9157730cf1
    else x
  decrypt x := x

end AllInOneBackup.Kurigram.Obfuscated2
