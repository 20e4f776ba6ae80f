import AllInOneBackup.Kurigram.Raw.Strings
import AllInOneBackup.Kurigram.Raw.Vector
import Mathlib.Logic.Equiv.Basic

/-! The classes that hold other objects: `MsgContainer`, whose messages hold bodies, `GzipPacked`,
which is gone after reading, and `FutureSalts`. The generated classes and gzip are parameters. -/

namespace AllInOneBackup.Kurigram.Raw

open AllInOneBackup.Bytes Raising Struct

/-! ### Model -/

structure FutureSalt where
  validSince : ℤ
  validUntil : ℤ
  salt : ℤ
  deriving DecidableEq

/-- An object of the core, over the others. -/
inductive Core (τ : Type)
  | other (x : τ)
  | msgContainer (messages : List (Message (Core τ)))
  | gzipPacked (packedData : Core τ)
  | futureSalts (reqMsgId now : ℤ) (salts : List FutureSalt)

def MsgContainer.id : ℕ := 0x73F1F8DC

def GzipPacked.id : ℕ := 0x3072CFA1

def FutureSalts.id : ℕ := 0xAE500895

/-- `gzip.compress` and `gzip.decompress`. -/
structure Gzip where
  compress : Bytes → Bytes
  decompress : Bytes → Except Exc Bytes

variable {τ : Type}

/-- `Int.read` and `Long.read`, as readers. -/
def intReader (w : ℕ) : Reader Exc ℤ := fun b => .ok (readInt w b)

namespace FutureSalt

def write (salt : FutureSalt) : Except Exc Bytes := do
  let validSince ← Int.new salt.validSince
  let validUntil ← Int.new salt.validUntil
  let bytes ← Long.new salt.salt
  return validSince ++ (validUntil ++ bytes)

def read : Reader Exc FutureSalt := do
  let validSince ← intReader 4
  let validUntil ← intReader 4
  let salt ← intReader 8
  return ⟨validSince, validUntil, salt⟩

end FutureSalt

namespace Core

section Write

variable (writeOther : τ → Except Exc Bytes) (gzip : Gzip)

mutual

/-- `write` of each class. -/
def write : Core τ → Except Exc Bytes
  | .other x => writeOther x
  | .msgContainer messages => do
    let count ← Int.new messages.length
    let bytes ← writeMessages messages
    return leBytes 4 MsgContainer.id ++ (count ++ bytes)
  | .gzipPacked packedData => do
    let data ← write packedData
    let bytes ← Bytes.new (gzip.compress data)
    return leBytes 4 GzipPacked.id ++ bytes
  | .futureSalts reqMsgId now salts => do
    let reqMsgId ← Long.new reqMsgId
    let now ← Int.new now
    let count ← Int.new salts.length
    let bytes ← salts.mapM FutureSalt.write
    return leBytes 4 FutureSalts.id ++ (reqMsgId ++ (now ++ (count ++ bytes.flatten)))

/-- `Message.write` of each message. -/
def writeMessages : List (Message (Core τ)) → Except Exc Bytes
  | [] => .ok []
  | ⟨body, msgId, seqNo, length⟩ :: messages => do
    let msgId ← Long.new msgId
    let seqNo ← Int.new seqNo
    let length ← Int.new length
    let body ← write body
    let rest ← writeMessages messages
    return msgId ++ seqNo ++ length ++ body ++ rest

end

end Write

section Read

variable (schema : Schema τ) (gzip : Gzip)

/-- `Message.read`, with the reader of the body. -/
def readMessage (body : Reader Exc (Core (Value τ))) : Reader Exc (Message (Core (Value τ))) :=
  fun data =>
    let ((msgId, seqNo, length, bytes), data) := Message.readFields data
    (body.run ⟨bytes, 0⟩).map fun (body, _) => (⟨body, msgId, seqNo, length⟩, data)

/-- `MsgContainer.read`, `GzipPacked.read` and `FutureSalts.read`. -/
def readMsgContainer (read : Reader Exc (Core (Value τ))) : Reader Exc (Core (Value τ)) := do
  let count ← intReader 4
  let messages ← (readMessage read).many count.toNat
  return .msgContainer messages

def readGzipPacked (read : Reader Exc (Core (Value τ))) : Reader Exc (Core (Value τ)) := do
  let bytes ← Bytes.reader
  let data ← gzip.decompress bytes
  let packed ← read.run ⟨data, 0⟩
  return packed.1

def readFutureSalts : Reader Exc (Core (Value τ)) := do
  let reqMsgId ← intReader 8
  let now ← intReader 4
  let count ← intReader 4
  let salts ← FutureSalt.read.many count.toNat
  return .futureSalts reqMsgId now salts

/-- The `read` of each class of the core under its id. -/
def objects (read : Reader Exc (Core (Value τ))) (id : ℕ) :
    Option (Reader Exc (Core (Value τ))) :=
  if id = MsgContainer.id then some (readMsgContainer read)
  else if id = GzipPacked.id then some (readGzipPacked gzip read)
  else if id = FutureSalts.id then some readFutureSalts
  else none

/-- `TLObject.read`; its calls are nested as deep as the interpreter allows. -/
def read : ℕ → Reader Exc (Core (Value τ))
  | 0 => fun _ => .error (.other "maximum recursion depth exceeded")
  | calls + 1 => fun b =>
    match objects gzip (read calls) (ofLE (b.read 4).1) with
    | some reader => reader.run (b.read 4).2
    | none => (TLObject.read schema b).map fun (x, data) => (.other x, data)

end Read

/-! ### What is read back -/

section RoundTrip

variable {schema : Schema τ} {gzip : Gzip}

/-- `write` of an object whose leaves are read back. -/
def writeBoxed (x : Boxed schema) : Except Exc Bytes := schema.write x.object

mutual

/-- The object without its packing. -/
def unwrap : Core (Boxed schema) → Core (Value τ)
  | .other x => .other (.object x.object)
  | .msgContainer messages => .msgContainer (unwrapMessages messages)
  | .gzipPacked packedData => unwrap packedData
  | .futureSalts reqMsgId now salts => .futureSalts reqMsgId now salts

def unwrapMessages : List (Message (Core (Boxed schema))) → List (Message (Core (Value τ)))
  | [] => []
  | ⟨body, msgId, seqNo, length⟩ :: messages =>
    ⟨unwrap body, msgId, seqNo, length⟩ :: unwrapMessages messages

end

mutual

/-- The calls of `TLObject.read` within each other. -/
def depth : Core (Boxed schema) → ℕ
  | .other _ | .futureSalts _ _ _ => 1
  | .msgContainer messages => depthMessages messages + 1
  | .gzipPacked packedData => depth packedData + 1

def depthMessages : List (Message (Core (Boxed schema))) → ℕ
  | [] => 0
  | ⟨body, _, _, _⟩ :: messages => max (depth body) (depthMessages messages)

end

mutual

/-- The `length` of every message is that of its body. -/
def Sized (gzip : Gzip) : Core (Boxed schema) → Prop
  | .other _ | .futureSalts _ _ _ => True
  | .msgContainer messages => SizedMessages gzip messages
  | .gzipPacked packedData => Sized gzip packedData

def SizedMessages (gzip : Gzip) : List (Message (Core (Boxed schema))) → Prop
  | [] => True
  | ⟨body, _, _, length⟩ :: messages =>
    (∀ bs, write writeBoxed gzip body = .ok bs → length = bs.length) ∧ Sized gzip body ∧
      SizedMessages gzip messages

end

/-- The generated classes have other ids. -/
def Apart (schema : Schema τ) : Prop :=
  ∀ id ∈ [MsgContainer.id, GzipPacked.id, FutureSalts.id], schema.objects id = none

theorem ofSignedLE_of_newInt {w : ℕ} {n : ℤ} {bs : Bytes} (h : newInt w n = .ok bs) :
    ofSignedLE bs = n := by
  unfold newInt at h
  split at h
  · rename_i hpack
    cases h
    exact (packSigned_eq_some hpack).2
  · cases h

theorem reads_intReader {w : ℕ} {n : ℤ} {bs : Bytes} (h : newInt w n = .ok bs) :
    Reads (intReader w) bs n := by
  intro pre post
  have hlength := length_of_newInt h
  have hread := readInt_append pre post hlength
  rw [ofSignedLE_of_newInt h] at hread
  rw [hlength]
  exact congrArg Except.ok hread

theorem reads_futureSalt {salt : FutureSalt} {bs : Bytes} (h : salt.write = .ok bs) :
    Reads FutureSalt.read bs salt := by
  unfold FutureSalt.write at h
  obtain ⟨since, hsince, h⟩ := bind_eq_ok.mp h
  obtain ⟨till, htill, h⟩ := bind_eq_ok.mp h
  obtain ⟨bytes, hbytes, h⟩ := bind_eq_ok.mp h
  obtain rfl := Except.ok.inj h
  exact (reads_intReader hsince).bind ((reads_intReader htill).bind
    ((reads_intReader hbytes).bind_pure rfl))

theorem reads_futureSalts {salts : List FutureSalt} {bytes : List Bytes}
    (h : salts.mapM FutureSalt.write = .ok bytes) :
    List.Forall₂ (Reads FutureSalt.read) bytes salts := by
  induction salts generalizing bytes with
  | nil =>
    obtain rfl := Except.ok.inj h
    exact .nil
  | cons salt salts ih =>
    rw [List.mapM_cons] at h
    obtain ⟨bs, hbs, h⟩ := bind_eq_ok.mp h
    obtain ⟨rest, hrest, h⟩ := bind_eq_ok.mp h
    obtain rfl := Except.ok.inj h
    exact .cons (reads_futureSalt hbs) (ih hrest)

theorem objects_msgContainer (read : Reader Exc (Core (Value τ))) :
    objects gzip read MsgContainer.id = some (readMsgContainer read) := by
  rw [objects, if_pos rfl]

theorem objects_gzipPacked (read : Reader Exc (Core (Value τ))) :
    objects gzip read GzipPacked.id = some (readGzipPacked gzip read) := by
  rw [objects, if_neg (by decide), if_pos rfl]

theorem objects_futureSalts (read : Reader Exc (Core (Value τ))) :
    objects gzip read FutureSalts.id = some readFutureSalts := by
  rw [objects, if_neg (by decide), if_neg (by decide), if_pos rfl]

theorem read_run (calls : ℕ) (b : ByteBuffer) :
    (read schema gzip (calls + 1)).run b =
      match objects gzip (read schema gzip calls) (ofLE (b.read 4).1) with
      | some reader => reader.run (b.read 4).2
      | none => (TLObject.read schema b).map fun (x, data) => (.other x, data) := rfl

/-- The bytes of a class of the core, behind its id. -/
theorem reads_objects {calls id : ℕ} {m : Reader Exc (Core (Value τ))} {bs : Bytes}
    {x : Core (Value τ)} (hid : id < 256 ^ 4)
    (hm : objects gzip (read schema gzip calls) id = some m)
    (h : Reads m bs x) : Reads (read schema gzip (calls + 1)) (leBytes 4 id ++ bs) x := by
  intro pre post
  have hread := ByteBuffer.read_append pre (leBytes 4 id) (bs ++ post)
  have hbody := h (pre ++ leBytes 4 id) post
  rw [length_leBytes, Nat.cast_ofNat] at hread
  simp only [List.append_assoc, List.length_append, length_leBytes, ← Nat.add_assoc] at hbody ⊢
  rw [read_run, hread, ofLE_leBytes hid, hm]
  exact hbody

theorem reads_other {calls : ℕ} (hapart : Apart schema) (x : Boxed schema) :
    Reads (read schema gzip (calls + 1)) x.bytes (.other (.object x.object)) := by
  intro pre post
  have hread := x.read_eq pre post
  have hbools : ∀ id ∈ [MsgContainer.id, GzipPacked.id, FutureSalts.id],
      id ≠ boolFalseId ∧ id ≠ boolTrueId := by decide
  have hid : ∀ id ∈ [MsgContainer.id, GzipPacked.id, FutureSalts.id],
      ofLE (ByteBuffer.read 4 ⟨pre ++ (x.bytes ++ post), pre.length⟩).1 ≠ id := by
    intro id hid heq
    unfold TLObject.read at hread
    generalize ByteBuffer.read 4 ⟨pre ++ (x.bytes ++ post), pre.length⟩ = r at hread heq
    obtain ⟨bs, b⟩ := r
    dsimp only at hread heq
    rw [heq, if_neg (hbools id hid).1, if_neg (hbools id hid).2, hapart id hid] at hread
    cases hread
  have hother : objects gzip (read schema gzip calls)
      (ofLE (ByteBuffer.read 4 ⟨pre ++ (x.bytes ++ post), pre.length⟩).1) = none := by
    rw [objects, if_neg (hid _ (by decide)), if_neg (hid _ (by decide)),
      if_neg (hid _ (by decide))]
  rw [read_run, hother, hread]
  rfl

theorem reads_message {body : Reader Exc (Core (Value τ))} {x : Core (Value τ)} {bs : Bytes}
    {msgId seqNo length : ℤ} {msgIdBytes seqNoBytes lengthBytes : Bytes}
    (hmsgId : Long.new msgId = .ok msgIdBytes) (hseqNo : Int.new seqNo = .ok seqNoBytes)
    (hlength : Int.new length = .ok lengthBytes) (hsize : length = bs.length)
    (hbody : Reads body bs x) :
    Reads (readMessage body) (msgIdBytes ++ seqNoBytes ++ lengthBytes ++ bs)
      ⟨x, msgId, seqNo, length⟩ := by
  intro pre post
  have h₁ := readInt_append pre (seqNoBytes ++ (lengthBytes ++ (bs ++ post)))
    (length_of_newInt hmsgId)
  have h₂ := readInt_append (pre ++ msgIdBytes) (lengthBytes ++ (bs ++ post))
    (length_of_newInt hseqNo)
  have h₃ := readInt_append (pre ++ msgIdBytes ++ seqNoBytes) (bs ++ post)
    (length_of_newInt hlength)
  have h₄ := ByteBuffer.read_append (pre ++ msgIdBytes ++ seqNoBytes ++ lengthBytes) bs post
  have hstart := hbody.run_start []
  rw [ofSignedLE_of_newInt hmsgId] at h₁
  rw [ofSignedLE_of_newInt hseqNo] at h₂
  rw [ofSignedLE_of_newInt hlength, hsize] at h₃
  rw [List.append_nil] at hstart
  simp only [List.append_assoc, List.length_append, length_of_newInt hmsgId,
    length_of_newInt hseqNo, length_of_newInt hlength, ← Nat.add_assoc] at h₁ h₂ h₃ h₄ ⊢
  show (readMessage body _) = _
  simp only [readMessage, Message.readFields, Long.read, Int.read, h₁, h₂, h₃, h₄, hstart]
  rw [hsize]
  rfl

theorem depth_pos (x : Core (Boxed schema)) : 0 < depth x := by
  cases x <;> simp only [depth] <;> omega

/-- What a reader of the packed bytes returns is all that is left of them. -/
theorem reads_gzipPacked {read : Reader Exc (Core (Value τ))} {data bytes : Bytes}
    {x : Core (Value τ)} (hgzip : gzip.decompress (gzip.compress data) = .ok data)
    (hbytes : Bytes.new (gzip.compress data) = .ok bytes) (h : Reads read data x) :
    Reads (readGzipPacked gzip read) bytes x := by
  have hsmall : (gzip.compress data).length < 2 ^ 24 := by
    by_contra hle
    rw [Bytes.new_of_le (not_lt.mp hle)] at hbytes
    cases hbytes
  obtain ⟨bs, hbs, hread⟩ := Bytes.new_reads hsmall
  obtain rfl := Except.ok.inj (hbs.symm.trans hbytes)
  have hstart := h.run_start []
  rw [List.append_nil] at hstart
  refine Reads.bind_pure (m := Bytes.reader) hread ?_
  rw [hgzip]
  show (liftM (read.run ⟨data, 0⟩) >>= fun packed => pure packed.1 : Reader Exc _) = pure x
  rw [hstart]
  rfl

variable (hgzip : ∀ bs, gzip.decompress (gzip.compress bs) = .ok bs) (hapart : Apart schema)

include hgzip hapart

omit hgzip hapart in
theorem reads_writeMessages {calls : ℕ}
    (ih : ∀ (x : Core (Boxed schema)) (bs : Bytes), write writeBoxed gzip x = .ok bs →
      Sized gzip x → depth x ≤ calls → Reads (read schema gzip calls) bs (unwrap x))
    {messages : List (Message (Core (Boxed schema)))} {bs : Bytes}
    (hwrite : writeMessages writeBoxed gzip messages = .ok bs)
    (hsized : SizedMessages gzip messages) (hdepth : depthMessages messages ≤ calls) :
    Reads ((readMessage (read schema gzip calls)).many messages.length) bs
      (unwrapMessages messages) := by
  induction messages generalizing bs with
  | nil =>
    rw [writeMessages] at hwrite
    obtain rfl := Except.ok.inj hwrite
    exact Reads.pure []
  | cons message messages ihMessages =>
    obtain ⟨body, msgId, seqNo, length⟩ := message
    rw [writeMessages] at hwrite
    obtain ⟨msgIdBytes, hmsgId, hwrite⟩ := bind_eq_ok.mp hwrite
    obtain ⟨seqNoBytes, hseqNo, hwrite⟩ := bind_eq_ok.mp hwrite
    obtain ⟨lengthBytes, hlength, hwrite⟩ := bind_eq_ok.mp hwrite
    obtain ⟨bodyBytes, hbody, hwrite⟩ := bind_eq_ok.mp hwrite
    obtain ⟨rest, hrest, hwrite⟩ := bind_eq_ok.mp hwrite
    obtain rfl := Except.ok.inj hwrite
    rw [SizedMessages] at hsized
    obtain ⟨hsize, hsizedBody, hsizedRest⟩ := hsized
    rw [depthMessages] at hdepth
    have hread := ih body bodyBytes hbody hsizedBody (by omega)
    have hreads := ihMessages hrest hsizedRest (by omega)
    rw [unwrapMessages]
    exact (reads_message hmsgId hseqNo hlength (hsize _ hbody) hread).bind (hreads.bind_pure rfl)

theorem reads_write {calls : ℕ} {x : Core (Boxed schema)} {bs : Bytes}
    (hwrite : write writeBoxed gzip x = .ok bs) (hsized : Sized gzip x) (hdepth : depth x ≤ calls) :
    Reads (read schema gzip calls) bs (unwrap x) := by
  induction calls generalizing x bs with
  | zero => exact absurd hdepth (not_le.mpr (depth_pos x))
  | succ calls ih =>
    cases x with
    | other x =>
      rw [write, writeBoxed, x.write_eq] at hwrite
      obtain rfl := Except.ok.inj hwrite
      rw [unwrap]
      exact reads_other hapart x
    | msgContainer messages =>
      rw [write] at hwrite
      obtain ⟨count, hcount, hwrite⟩ := bind_eq_ok.mp hwrite
      obtain ⟨bytes, hbytes, hwrite⟩ := bind_eq_ok.mp hwrite
      obtain rfl := Except.ok.inj hwrite
      rw [Sized] at hsized
      rw [depth] at hdepth
      have hmessages := reads_writeMessages (fun y bs => ih) hbytes hsized (by omega)
      rw [unwrap]
      refine reads_objects (by decide) (objects_msgContainer _)
        ((reads_intReader hcount).bind (Reads.bind_pure ?_ rfl))
      rw [Int.toNat_natCast]
      exact hmessages
    | gzipPacked packedData =>
      rw [write] at hwrite
      obtain ⟨data, hdata, hwrite⟩ := bind_eq_ok.mp hwrite
      obtain ⟨bytes, hbytes, hwrite⟩ := bind_eq_ok.mp hwrite
      obtain rfl := Except.ok.inj hwrite
      rw [Sized] at hsized
      rw [depth] at hdepth
      rw [unwrap]
      exact reads_objects (by decide) (objects_gzipPacked _)
        (reads_gzipPacked (hgzip data) hbytes (ih hdata hsized (by omega)))
    | futureSalts reqMsgId now salts =>
      rw [write] at hwrite
      obtain ⟨reqBytes, hreq, hwrite⟩ := bind_eq_ok.mp hwrite
      obtain ⟨nowBytes, hnow, hwrite⟩ := bind_eq_ok.mp hwrite
      obtain ⟨count, hcount, hwrite⟩ := bind_eq_ok.mp hwrite
      obtain ⟨bytes, hbytes, hwrite⟩ := bind_eq_ok.mp hwrite
      obtain rfl := Except.ok.inj hwrite
      rw [unwrap]
      refine reads_objects (by decide) (objects_futureSalts _) ((reads_intReader hreq).bind
        ((reads_intReader hnow).bind ((reads_intReader hcount).bind (Reads.bind_pure ?_ rfl))))
      rw [Int.toNat_natCast]
      exact Reads.many (reads_futureSalts hbytes)

end RoundTrip

/-! ### What is never read -/

section Plain

variable {schema : Schema τ} {gzip : Gzip}

mutual

/-- Nothing is packed, at any depth. -/
def Plain : Core τ → Prop
  | .other _ | .futureSalts _ _ _ => True
  | .msgContainer messages => PlainMessages messages
  | .gzipPacked _ => False

def PlainMessages : List (Message (Core τ)) → Prop
  | [] => True
  | ⟨body, _, _, _⟩ :: messages => Plain body ∧ PlainMessages messages

end

theorem run_bind_eq_ok {α β : Type} {m : Reader Exc α} {f : α → Reader Exc β} {b b' : ByteBuffer}
    {y : β} (h : (m >>= f).run b = .ok (y, b')) :
    ∃ x b₁, m.run b = .ok (x, b₁) ∧ (f x).run b₁ = .ok (y, b') := by
  rw [StateT.run_bind] at h
  obtain ⟨⟨x, b₁⟩, hx, h⟩ := bind_eq_ok.mp h
  exact ⟨x, b₁, hx, h⟩

theorem plain_many {body : Reader Exc (Core (Value τ))}
    (hbody : ∀ b x b', body.run b = .ok (x, b') → Plain x) {n : ℕ} {b b' : ByteBuffer}
    {messages : List (Message (Core (Value τ)))}
    (h : ((readMessage body).many n).run b = .ok (messages, b')) : PlainMessages messages := by
  induction n generalizing b messages with
  | zero =>
    cases h
    exact trivial
  | succ n ih =>
    obtain ⟨message, b₁, hmessage, h⟩ := run_bind_eq_ok h
    obtain ⟨rest, b₂, hrest, h⟩ := run_bind_eq_ok h
    cases h
    obtain ⟨⟨x, b₃⟩, hx, hmessage⟩ := map_eq_ok.mp hmessage
    cases hmessage
    exact ⟨hbody _ _ _ hx, ih hrest⟩

theorem plain_read {calls : ℕ} {b b' : ByteBuffer} {x : Core (Value τ)}
    (h : (read schema gzip calls).run b = .ok (x, b')) : Plain x := by
  induction calls generalizing b b' x with
  | zero => cases h
  | succ calls ih =>
    rw [read_run] at h
    unfold objects at h
    split_ifs at h with hcontainer hpacked hsalts
    · obtain ⟨count, b₁, -, h⟩ := run_bind_eq_ok h
      obtain ⟨messages, b₂, hmessages, h⟩ := run_bind_eq_ok h
      cases h
      exact plain_many (fun _ _ _ => ih) hmessages
    · obtain ⟨bytes, b₁, -, h⟩ := run_bind_eq_ok h
      obtain ⟨data, b₂, -, h⟩ := run_bind_eq_ok h
      obtain ⟨packed, b₃, hpacked, h⟩ := run_bind_eq_ok h
      cases h
      obtain ⟨packed', hrun, hlift⟩ := bind_eq_ok.mp hpacked
      cases hlift
      exact ih hrun
    · obtain ⟨reqMsgId, b₁, -, h⟩ := run_bind_eq_ok h
      obtain ⟨now, b₂, -, h⟩ := run_bind_eq_ok h
      obtain ⟨count, b₃, -, h⟩ := run_bind_eq_ok h
      obtain ⟨salts, b₄, -, h⟩ := run_bind_eq_ok h
      cases h
      exact trivial
    · obtain ⟨⟨value, b₁⟩, -, h⟩ := map_eq_ok.mp h
      cases h
      exact trivial

/-- What an object writes is read as the same object without its packing, whatever follows it,
where the lengths of the messages are right and the calls are not nested too deep. Nothing that is
read, from whatever bytes, is packed. -/
theorem read_written {x : Core (Boxed schema)} {bs : Bytes} {calls : ℕ}
    (hgzip : ∀ bs, gzip.decompress (gzip.compress bs) = .ok bs) (hapart : Apart schema)
    (hwrite : write writeBoxed gzip x = .ok bs) (hsized : Sized gzip x) (hdepth : depth x ≤ calls) :
    (∀ post, (read schema gzip calls).run ⟨bs ++ post, 0⟩ =
        .ok (unwrap x, ⟨bs ++ post, bs.length⟩)) ∧
      ∀ (b b' : ByteBuffer) (y : Core (Value τ)),
        (read schema gzip calls).run b = .ok (y, b') → Plain y :=
  ⟨fun post => (reads_write hgzip hapart hwrite hsized hdepth).run_start post,
    fun _ _ _ h => plain_read h⟩

/-- A container with one message, whose body is packed. -/
def packedContainer : Core (Boxed Vector.inputMessageSchema) :=
  .msgContainer [⟨.gzipPacked (.other Vector.inputMessage), 4, 1, 36⟩]

/-- What gzip makes of that body. -/
def packedBody : Bytes := beBytes 28 0x1f8b0800000000000203535a5cb68c91818101003e90923208000000

def bodyGzip : Gzip where
  compress := Equiv.swap Vector.inputMessage.bytes packedBody
  decompress bs := .ok (Equiv.swap Vector.inputMessage.bytes packedBody bs)

theorem read_written_packedContainer : ∃ bs,
    write writeBoxed bodyGzip packedContainer = .ok bs ∧
    (∀ post, (read Vector.inputMessageSchema bodyGzip 3).run ⟨bs ++ post, 0⟩ =
        .ok (.msgContainer [⟨.other (.object ⟨1⟩), 4, 1, 36⟩], ⟨bs ++ post, bs.length⟩)) ∧
      ∀ (b b' : ByteBuffer) (y : Core (Value Vector.InputMessageID)),
        (read Vector.inputMessageSchema bodyGzip 3).run b = .ok (y, b') → Plain y := by
  obtain ⟨bs, hbs⟩ : ∃ bs, write writeBoxed bodyGzip packedContainer = .ok bs := ⟨_, rfl⟩
  have hgzip : ∀ bs, bodyGzip.decompress (bodyGzip.compress bs) = .ok bs :=
    fun bs => congrArg Except.ok (Equiv.swap_apply_self _ _ bs)
  refine ⟨bs, hbs, read_written (x := packedContainer) hgzip ?_ hbs ?_ (by decide)⟩
  · unfold Apart
    decide
  · refine ⟨fun bs hbs => ?_, trivial, trivial⟩
    obtain rfl := Except.ok.inj hbs
    rfl

end Plain

end Core

end AllInOneBackup.Kurigram.Raw
