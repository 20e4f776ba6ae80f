import AllInOneBackup.Data.Chunked
import AllInOneBackup.Kurigram.Raw.Core

/-! The MTProto envelope. SHA-256 and AES-IGE are arbitrary functions, the latter one that may
raise. `unpack` parses the body before it checks the hash and takes the padding from a slice
by the signed length field, so its checks do not bound a negative one. -/

namespace AllInOneBackup.Kurigram

open Bytes Raising Raw

/-! ### Model -/

structure Crypto where
  sha256 : Bytes → Bytes
  ige256Encrypt : Bytes → Bytes → Bytes → Except Exc Bytes
  ige256Decrypt : Bytes → Bytes → Bytes → Except Exc Bytes

namespace Mtproto

variable {τ : Type} (crypto : Crypto) (schema : Schema τ)

def kdf (authKey msgKey : Bytes) (outgoing : Bool) : Bytes × Bytes :=
  let x := if outgoing then 0 else 8
  let a := crypto.sha256 (msgKey ++ authKey.extract x (x + 36))
  let b := crypto.sha256 (authKey.extract (x + 40) (x + 76) ++ msgKey)
  (a.take 8 ++ b.extract 8 24 ++ a.extract 24 32, b.take 8 ++ a.extract 8 24 ++ b.extract 24 32)

/-- What `pack` encrypts, without the padding. -/
def packData (message : Message τ) (salt : ℤ) (sessionId : Bytes) : Except Exc Bytes := do
  let salt ← Long.new salt
  let message ← message.write schema
  return salt ++ sessionId ++ message

/-- The number of padding bytes that `pack` asks `urandom` for. -/
def paddingSize (data : Bytes) : ℕ := (-(data.length + 12 : ℤ) % 16 + 12).toNat

/-- The last part of `pack`, from the plaintext on. -/
def encrypt (plaintext authKey authKeyId : Bytes) : Except Exc Bytes := do
  let msgKeyLarge := crypto.sha256 (authKey.extract 88 120 ++ plaintext)
  let msgKey := msgKeyLarge.extract 8 24
  let (aesKey, aesIv) := kdf crypto authKey msgKey true
  let encrypted ← crypto.ige256Encrypt plaintext aesKey aesIv
  return authKeyId ++ msgKey ++ encrypted

def pack (urandom : (n : ℕ) → Vector UInt8 n) (message : Message τ) (salt : ℤ)
    (sessionId authKey authKeyId : Bytes) : Except Exc Bytes := do
  let data ← packData schema message salt sessionId
  let padding := (urandom (paddingSize data)).toList
  encrypt crypto (data ++ padding) authKey authKeyId

/-- `hex(n)`. -/
def hex (n : ℕ) : String := "0x" ++ String.ofList (Nat.toDigits 16 n)

/-- The unread bytes in rows of eight words, as the `ValueError` shows them. -/
def dump (left : Bytes) : String :=
  let digits := left.flatMap fun b => [(b.toNat / 16).digitChar, (b.toNat % 16).digitChar]
  "\n".intercalate <| (Chunked.pieces 64 digits).map fun row =>
    " ".intercalate ((Chunked.pieces 8 row).map String.ofList)

/-- The `except KeyError` clause of `unpack`. -/
def onKeyError (data : ByteBuffer) : Exc → Exc
  | .keyError 0 => .connectionError "Received empty data. Check your internet connection."
  | .keyError key => .valueError <|
      "The server sent an unknown constructor: " ++ hex key ++ "\n" ++ dump data.readAll.1
  | e => e

def unpack (b : ByteBuffer) (sessionId authKey authKeyId : Bytes) :
    Except Exc (Message (Value τ)) := do
  let (keyId, b) := b.read 8
  SecurityCheckMismatch.check (keyId = authKeyId) "b.read(8) == auth_key_id"
  let (msgKey, b) := b.read 16
  let (aesKey, aesIv) := kdf crypto authKey msgKey false
  let value ← crypto.ige256Decrypt b.readAll.1 aesKey aesIv
  let data : ByteBuffer := ⟨value, 0⟩
  let (_salt, data) := data.read 8
  let (id, data) := data.read 8
  SecurityCheckMismatch.check (id = sessionId) "data.read(8) == session_id"
  let (message, data) := Message.read schema data
  let message ← message.mapError (onKeyError data)
  SecurityCheckMismatch.check
    (msgKey = (crypto.sha256 (authKey.extract 96 128 ++ data.value)).extract 8 24)
    "msg_key == sha256(auth_key[96:96 + 32] + data.getvalue()).digest()[8:24]"
  let (payload, _) := (data.seek 32).readAll
  let padding := sliceFrom payload message.length
  SecurityCheckMismatch.check (12 ≤ padding.length ∧ padding.length ≤ 1024)
    "12 <= len(padding) <= 1024"
  SecurityCheckMismatch.check (payload.length % 4 = 0) "len(payload) % 4 == 0"
  SecurityCheckMismatch.check (message.msgId % 2 ≠ 0) "message.msg_id % 2 != 0"
  return message

/-! ### What `unpack` accepts -/

/-- The `msg_key` of a packet. -/
def msgKeyOf (b : ByteBuffer) : Bytes := ((b.read 8).2.read 16).1

/-- The decryption that `unpack` works on. -/
def decrypt (b : ByteBuffer) (authKey : Bytes) : Except Exc Bytes :=
  let (aesKey, aesIv) := kdf crypto authKey (msgKeyOf b) false
  crypto.ige256Decrypt ((b.read 8).2.read 16).2.readAll.1 aesKey aesIv

/-- The decryption behind the salt and the session_id, where `Message.read` starts. -/
def messagePart (plaintext : Bytes) : ByteBuffer := ((ByteBuffer.mk plaintext 0).read 8).2.read 8 |>.2

/-- The length field of the message in the decryption. -/
def lengthField (plaintext : Bytes) : ℤ := ofSignedLE (plaintext.extract 28 32)

def payload (plaintext : Bytes) : Bytes := plaintext.drop 32

variable (b : ByteBuffer) (sessionId authKey authKeyId : Bytes)

/-- The checks of `unpack`, passed by a packet with this decryption and message. -/
structure Accepts (plaintext : Bytes) (message : Message (Value τ)) : Prop where
  keyId : (b.read 8).1 = authKeyId
  decrypted : decrypt crypto b authKey = .ok plaintext
  sessionId : (((ByteBuffer.mk plaintext 0).read 8).2.read 8).1 = sessionId
  read : (Message.read schema (messagePart plaintext)).1 = .ok message
  msgKey : msgKeyOf b = (crypto.sha256 (authKey.extract 96 128 ++ plaintext)).extract 8 24
  padding : 12 ≤ (sliceFrom (payload plaintext) message.length).length ∧
    (sliceFrom (payload plaintext) message.length).length ≤ 1024
  payload : (payload plaintext).length % 4 = 0
  msgId : message.msgId % 2 ≠ 0

variable {crypto schema b sessionId authKey authKeyId}

theorem unpack_eq_ok_iff {message : Message (Value τ)} :
    unpack crypto schema b sessionId authKey authKeyId = .ok message ↔
      ∃ plaintext, Accepts crypto schema b sessionId authKey authKeyId plaintext message := by
  simp only [unpack, bind_eq_ok, mapError_eq_ok, SecurityCheckMismatch.check_eq_ok]
  constructor
  · rintro ⟨-, hkey, plaintext, hdec, -, hid, message', hread, -, hmsg, -, hpad, -, hlen, -,
      hodd, h⟩
    cases h
    exact ⟨plaintext, hkey, hdec, hid, hread, hmsg, hpad, hlen, hodd⟩
  · rintro ⟨plaintext, h⟩
    exact ⟨(), h.keyId, plaintext, h.decrypted, (), h.sessionId, message, h.read, (), h.msgKey,
      (), h.padding, (), h.payload, (), h.msgId, rfl⟩

/-! ### The length field -/

/-- The message was parsed from the payload up to its length, and the rest is padding. -/
structure Exact (schema : Schema τ) (plaintext : Bytes) (message : Message (Value τ)) : Prop where
  length : 0 ≤ message.length
  parsed : (Message.readFields (messagePart plaintext)).1.2.2.2 =
    sliceTo (payload plaintext) message.length
  body : ∃ rest, TLObject.read schema ⟨sliceTo (payload plaintext) message.length, 0⟩ =
    .ok (message.body, rest)
  total : message.length + (sliceFrom (payload plaintext) message.length).length =
    (payload plaintext).length
  padding : 12 ≤ (sliceFrom (payload plaintext) message.length).length ∧
    (sliceFrom (payload plaintext) message.length).length ≤ 1024

theorem messagePart_of_le {plaintext : Bytes} (h : 16 ≤ plaintext.length) :
    messagePart plaintext = ⟨plaintext, 16⟩ := by
  have h₈ : (ByteBuffer.mk plaintext 0).read 8 = (plaintext.extract 0 8, ⟨plaintext, 8⟩) :=
    ByteBuffer.read_of_le (n := 8) _ (by simp only; omega)
  have h₁₆ : (ByteBuffer.mk plaintext 8).read 8 = (plaintext.extract 8 16, ⟨plaintext, 16⟩) :=
    ByteBuffer.read_of_le (n := 8) _ (by simp only; omega)
  rw [messagePart, h₈, h₁₆]

theorem Accepts.exact_iff {plaintext : Bytes} {message : Message (Value τ)}
    (h : Accepts crypto schema b sessionId authKey authKeyId plaintext message) :
    Exact schema plaintext message ↔ 0 ≤ lengthField plaintext := by
  have hpad := h.padding.1
  have hlen : 32 ≤ plaintext.length := by
    have hle : (sliceFrom (Mtproto.payload plaintext) message.length).length ≤
        plaintext.length - 32 := by
      rw [sliceFrom, List.length_drop, Mtproto.payload, List.length_drop]
      omega
    omega
  have hpart : messagePart plaintext = ⟨plaintext, 16⟩ := messagePart_of_le (by omega)
  have hfields := @Message.readFields_of_le ⟨plaintext, 16⟩ (by simpa using hlen)
  obtain ⟨hlength, hbody⟩ := Message.read_eq_ok schema (hpart ▸ h.read)
  rw [hfields] at hlength hbody
  have hfield : message.length = lengthField plaintext := hlength
  rw [← hfield]
  refine ⟨fun hex => hex.length, fun hnonneg => ?_⟩
  obtain ⟨n, hn⟩ := Int.eq_ofNat_of_zero_le hnonneg
  -- a length that is not negative makes both slices and the read agree
  have hread : (ByteBuffer.read message.length ⟨plaintext, 32⟩).1 =
      sliceTo (Mtproto.payload plaintext) message.length := by
    rw [hn, ByteBuffer.read_of_nonneg _ (Int.natCast_nonneg n), sliceTo_natCast]
    rfl
  rw [hlength] at hread
  have hle : n ≤ (Mtproto.payload plaintext).length := by
    rw [hn, sliceFrom_natCast, List.length_drop] at hpad
    omega
  refine ⟨hnonneg, ?_, ?_, ?_, h.padding⟩
  · rw [hpart, hfields, hlength]
    exact hread
  · rw [hlength, ← hread]
    exact hbody
  · rw [hn, sliceFrom_natCast, List.length_drop]
    omega

/-! ### The padding of `pack` -/

/-- `n` is a signed number of `w` bytes. -/
def Fits (w : ℕ) (n : ℤ) : Prop := -256 ^ w ≤ 2 * n ∧ 2 * n < 256 ^ w

/-- `pack` encrypts what it is to send with 12 to 27 bytes of padding, in whole blocks. -/
structure Padded (crypto : Crypto) (schema : Schema τ) (urandom : (n : ℕ) → Vector UInt8 n)
    (message : Message τ) (salt : ℤ) (sessionId authKey authKeyId : Bytes) : Prop where
  produced : ∀ body, schema.write message.body = .ok body → message.length = body.length →
    4 ∣ body.length → Fits 8 salt → Fits 8 message.msgId → Fits 4 message.seqNo →
    Fits 4 message.length → ∃ data, packData schema message salt sessionId = .ok data
  padded : ∀ data, packData schema message salt sessionId = .ok data → ∃ padding,
    pack crypto schema urandom message salt sessionId authKey authKeyId =
      encrypt crypto (data ++ padding) authKey authKeyId ∧
    16 ∣ (data ++ padding).length ∧ 12 ≤ padding.length ∧ padding.length ≤ 27

theorem packData_of_fits {message : Message τ} {salt : ℤ} {body : Bytes}
    (hbody : schema.write message.body = .ok body) (hsalt : Fits 8 salt)
    (hid : Fits 8 message.msgId) (hseq : Fits 4 message.seqNo) (hlen : Fits 4 message.length) :
    ∃ data, packData schema message salt sessionId = .ok data := by
  obtain ⟨salt', hsalt'⟩ := newInt_of_fits hsalt
  obtain ⟨id, hid'⟩ := newInt_of_fits hid
  obtain ⟨seq, hseq'⟩ := newInt_of_fits hseq
  obtain ⟨len, hlen'⟩ := newInt_of_fits hlen
  refine ⟨salt' ++ sessionId ++ (id ++ seq ++ len ++ body), ?_⟩
  exact bind_eq_ok.mpr ⟨salt', hsalt', bind_eq_ok.mpr ⟨_, bind_eq_ok.mpr ⟨id, hid',
    bind_eq_ok.mpr ⟨seq, hseq', bind_eq_ok.mpr ⟨len, hlen', bind_eq_ok.mpr ⟨body, hbody, rfl⟩⟩⟩⟩,
    rfl⟩⟩

theorem paddingSize_bounds (data : Bytes) :
    16 ∣ data.length + paddingSize data ∧ 12 ≤ paddingSize data ∧ paddingSize data ≤ 27 := by
  unfold paddingSize
  omega

theorem padded (crypto : Crypto) (schema : Schema τ) (urandom : (n : ℕ) → Vector UInt8 n)
    (message : Message τ) (salt : ℤ) (sessionId authKey authKeyId : Bytes) :
    Padded crypto schema urandom message salt sessionId authKey authKeyId where
  produced _ hbody _ _ hsalt hid hseq hlen := packData_of_fits hbody hsalt hid hseq hlen
  padded data hdata := by
    refine ⟨(urandom (paddingSize data)).toList, ?_, ?_⟩
    · rw [pack, hdata]
      rfl
    · rw [List.length_append, Vector.length_toList]
      exact paddingSize_bounds data

/-! ### The envelope -/

/-- Every message that `unpack` returns is exact and every message that `pack` sends is padded,
exactly when no negative length field passes the checks of `unpack`. -/
theorem envelope_iff (crypto : Crypto) (schema : Schema τ) (b : ByteBuffer)
    (urandom : (n : ℕ) → Vector UInt8 n) (sent : Message τ) (salt : ℤ)
    (sessionId authKey authKeyId : Bytes) :
    (∀ message, unpack crypto schema b sessionId authKey authKeyId = .ok message →
        ∃ plaintext, decrypt crypto b authKey = .ok plaintext ∧ Exact schema plaintext message) ∧
      Padded crypto schema urandom sent salt sessionId authKey authKeyId ↔
    ∀ plaintext message, Accepts crypto schema b sessionId authKey authKeyId plaintext message →
      0 ≤ lengthField plaintext := by
  rw [and_iff_left (padded ..)]
  constructor
  · intro h plaintext message hacc
    obtain ⟨plaintext', hdec, hex⟩ := h message (unpack_eq_ok_iff.mpr ⟨plaintext, hacc⟩)
    obtain rfl : plaintext' = plaintext := by
      have := hdec.symm.trans hacc.decrypted
      exact Except.ok.inj this
    exact hacc.exact_iff.mp hex
  · intro h message hok
    obtain ⟨plaintext, hacc⟩ := unpack_eq_ok_iff.mp hok
    exact ⟨plaintext, hacc.decrypted, hacc.exact_iff.mpr (h plaintext message hacc)⟩

/-! ### A negative length -/

structure Pong where
  msgId : ℤ
  pingId : ℤ
  deriving DecidableEq

/-- The schema of `pong#347773c5 msg_id:long ping_id:long = Pong` alone. -/
def pongSchema : Schema Pong where
  objects id := if id = 0x347773c5 then some fun b =>
    let (msgId, b) := Long.read b
    let (pingId, b) := Long.read b
    .ok (⟨msgId, pingId⟩, b)
  else none
  write pong := do
    let msgId ← Long.new pong.msgId
    let pingId ← Long.new pong.pingId
    return leBytes 4 0x347773c5 ++ msgId ++ pingId

/-- A digest of zeros and a cipher that changes nothing. -/
def plainCrypto : Crypto where
  sha256 _ := List.replicate 32 0
  ige256Encrypt data _ _ := .ok data
  ige256Decrypt data _ _ := .ok data

/-- A salt, a session_id, the header of a message with the length -16, a `Pong` and twelve
bytes of padding. -/
def negativeLength : Bytes :=
  List.replicate 8 0 ++ List.replicate 8 7 ++ leBytes 8 5 ++ leBytes 4 1 ++
    leBytes 4 (2 ^ 32 - 16) ++ leBytes 4 0x347773c5 ++ leBytes 8 1 ++ leBytes 8 2 ++
    List.replicate 12 0

/-- `unpack` returns the message of such a packet, though its length is -16. -/
theorem negative_length_accepted : ∃ message,
    unpack plainCrypto pongSchema
      ⟨List.replicate 8 9 ++ List.replicate 16 0 ++ negativeLength, 0⟩
      (List.replicate 8 7) [] (List.replicate 8 9) = .ok message ∧
    message.length = -16 ∧
    ¬∃ plaintext, decrypt plainCrypto
      ⟨List.replicate 8 9 ++ List.replicate 16 0 ++ negativeLength, 0⟩ [] = .ok plaintext ∧
      Exact pongSchema plaintext message := by
  refine ⟨⟨.object ⟨1, 2⟩, 5, 1, -16⟩, by rfl, rfl, fun ⟨_, _, hex⟩ => ?_⟩
  exact absurd hex.length (by decide)

end Mtproto

end AllInOneBackup.Kurigram
