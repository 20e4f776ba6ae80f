import AllInOneBackup.Data.ByteBuffer

/-! The core of the TL layer: the integers, `TLObject.read` with its table of constructors, and
the `Message` that the transport encrypts. The classes in the table are generated from the
schema, so the table and what a body writes are parameters. -/

namespace AllInOneBackup.Kurigram

open Bytes Raising

/-! ### Exceptions -/

inductive Exc
  | securityCheckMismatch (text : String)
  | connectionError (text : String)
  | valueError (text : String)
  | keyError (key : ℕ)
  | overflowError (text : String)
  /-- whatever else comes out of a generated class or a cipher -/
  | other (text : String)
  deriving DecidableEq

/-- `SecurityCheckMismatch.check`. -/
def SecurityCheckMismatch.check (cond : Prop) [Decidable cond] (msg : String) : Except Exc Unit :=
  if cond then pure () else throw (.securityCheckMismatch ("Check failed: " ++ msg))

theorem SecurityCheckMismatch.check_eq_ok {cond : Prop} [Decidable cond] {msg : String} {u : Unit} :
    SecurityCheckMismatch.check cond msg = .ok u ↔ cond := by
  unfold SecurityCheckMismatch.check
  split_ifs with h
  · exact iff_of_true rfl h
  · exact iff_of_false nofun h

namespace Raw

/-! ### Integers -/

/-- `Int.read` of a class with `SIZE` `w`. -/
def readInt (w : ℕ) (data : ByteBuffer) : ℤ × ByteBuffer :=
  let (bs, data) := data.read w
  (ofSignedLE bs, data)

/-- `Int.__new__` of a class with `SIZE` `w`. -/
def newInt (w : ℕ) (value : ℤ) : Except Exc Bytes :=
  match packSigned w value with
  | some bs => .ok bs
  | none => .error (.overflowError "int too big to convert")

namespace Int

def read : ByteBuffer → ℤ × ByteBuffer := readInt 4

def new : ℤ → Except Exc Bytes := newInt 4

end Int

namespace Long

def read : ByteBuffer → ℤ × ByteBuffer := readInt 8

def new : ℤ → Except Exc Bytes := newInt 8

end Long

/-- The number in bytes that stand behind the position. -/
theorem readInt_append {w : ℕ} (pre : Bytes) {bs : Bytes} (post : Bytes) (h : bs.length = w) :
    readInt w ⟨pre ++ (bs ++ post), pre.length⟩ =
      (ofSignedLE bs, ⟨pre ++ (bs ++ post), pre.length + w⟩) := by
  subst h
  rw [readInt, ByteBuffer.read_append]

theorem length_of_newInt {w : ℕ} {value : ℤ} {bs : Bytes} (h : newInt w value = .ok bs) :
    bs.length = w := by
  unfold newInt at h
  split at h
  · rename_i hpack
    cases h
    exact (packSigned_eq_some hpack).1
  · cases h

theorem newInt_of_fits {w : ℕ} {value : ℤ} (h : -256 ^ w ≤ 2 * value ∧ 2 * value < 256 ^ w) :
    ∃ bs, newInt w value = .ok bs := by
  rw [newInt, packSigned, if_pos h]
  exact ⟨_, rfl⟩

/-! ### Objects -/

/-- What a read returns: a Python number or bool, or an object of a generated class. -/
inductive Value (τ : Type)
  | int (n : ℤ)
  | bool (b : Bool)
  | object (x : τ)
  deriving DecidableEq

/-- The generated part: the classes under their constructor ids, each as its `read` from behind
the id, and `write`. -/
structure Schema (τ : Type) where
  objects : ℕ → Option (ByteBuffer → Except Exc (τ × ByteBuffer))
  write : τ → Except Exc Bytes

/-- `BoolFalse.ID`. -/
def boolFalseId : ℕ := 0xBC799737

/-- `BoolTrue.ID`. -/
def boolTrueId : ℕ := 0x997275B5

variable {τ : Type} (schema : Schema τ)

/-- `TLObject.read`; the table has the two bools besides the generated classes. -/
def TLObject.read (b : ByteBuffer) : Except Exc (Value τ × ByteBuffer) :=
  let (id, b) := b.read 4
  if ofLE id = boolFalseId then .ok (.bool false, b)
  else if ofLE id = boolTrueId then .ok (.bool true, b)
  else match schema.objects (ofLE id) with
    | some read => (read b).map fun (x, b) => (.object x, b)
    | none => .error (.keyError (ofLE id))

/-! ### Messages -/

structure Message (τ : Type) where
  body : τ
  msgId : ℤ
  seqNo : ℤ
  length : ℤ

namespace Message

/-- The part of `read` before the body is parsed: `msg_id`, `seq_no`, `length` and the bytes
of the body. -/
def readFields (data : ByteBuffer) : (ℤ × ℤ × ℤ × Bytes) × ByteBuffer :=
  let (msgId, data) := Long.read data
  let (seqNo, data) := Int.read data
  let (length, data) := Int.read data
  let (body, data) := data.read length
  ((msgId, seqNo, length, body), data)

/-- `Message.read`; where it raises, `data` is left behind the bytes of the body. -/
def read (data : ByteBuffer) : Except Exc (Message (Value τ)) × ByteBuffer :=
  let ((msgId, seqNo, length, body), data) := readFields data
  ((TLObject.read schema ⟨body, 0⟩).map fun (body, _) => ⟨body, msgId, seqNo, length⟩, data)

/-- `Message.write`. -/
def write (message : Message τ) : Except Exc Bytes := do
  let msgId ← Long.new message.msgId
  let seqNo ← Int.new message.seqNo
  let length ← Int.new message.length
  let body ← schema.write message.body
  return msgId ++ seqNo ++ length ++ body

/-- The fields of a message whose header is all there. -/
theorem readFields_of_le {data : ByteBuffer} (h : data.pos + 16 ≤ data.value.length) :
    (readFields data).1 =
      (ofSignedLE (data.value.extract data.pos (data.pos + 8)),
        ofSignedLE (data.value.extract (data.pos + 8) (data.pos + 12)),
        ofSignedLE (data.value.extract (data.pos + 12) (data.pos + 16)),
        (ByteBuffer.read (ofSignedLE (data.value.extract (data.pos + 12) (data.pos + 16)))
          ⟨data.value, data.pos + 16⟩).1) := by
  have h₁ : Long.read data =
      (ofSignedLE (data.value.extract data.pos (data.pos + 8)), ⟨data.value, data.pos + 8⟩) := by
    simp only [Long.read, readInt]
    rw [data.read_of_le (by omega)]
  have h₂ : Int.read ⟨data.value, data.pos + 8⟩ =
      (ofSignedLE (data.value.extract (data.pos + 8) (data.pos + 12)),
        ⟨data.value, data.pos + 12⟩) := by
    simp only [Int.read, readInt]
    rw [ByteBuffer.read_of_le _ (by simp only; omega)]
  have h₃ : Int.read ⟨data.value, data.pos + 12⟩ =
      (ofSignedLE (data.value.extract (data.pos + 12) (data.pos + 16)),
        ⟨data.value, data.pos + 16⟩) := by
    simp only [Int.read, readInt]
    rw [ByteBuffer.read_of_le _ (by simp only; omega)]
  simp only [readFields, h₁, h₂, h₃]

theorem read_eq_ok {data : ByteBuffer} {message : Message (Value τ)}
    (h : (read schema data).1 = .ok message) :
    message.length = (readFields data).1.2.2.1 ∧
      ∃ b, TLObject.read schema ⟨(readFields data).1.2.2.2, 0⟩ = .ok (message.body, b) := by
  obtain ⟨⟨body, b⟩, hbody, rfl⟩ := map_eq_ok.mp h
  exact ⟨rfl, b, hbody⟩

end Message

end Raw

end AllInOneBackup.Kurigram
