import AllInOneBackup.Kurigram.FileIds.Codec

/-! `FileUniqueId`: its type and the numbers that belong to it are packed into bytes, and the bytes
become a text as those of a file id do. The format `"<is"` of a web location takes one byte of its
url. -/

namespace AllInOneBackup.Kurigram.FileIds

open Bytes Raw Raising
open Struct (Reader Reads Packs Fits)

inductive FileUniqueType
  | web
  | photo
  | document
  | secure
  | encrypted
  | temp
  deriving DecidableEq

namespace FileUniqueType

/-- In the order of their values, from zero. -/
def all : List FileUniqueType := [web, photo, document, secure, encrypted, temp]

def toInt (t : FileUniqueType) : ℤ := all.idxOf t

def ofInt? (n : ℤ) : Option FileUniqueType := if n < 0 then none else all[n.toNat]?

theorem ofInt_toInt (t : FileUniqueType) : Fits 4 t.toInt ∧ ofInt? t.toInt = some t := by
  cases t <;> refine ⟨⟨?_, ?_⟩, ?_⟩ <;> decide

end FileUniqueType

structure FileUniqueId where
  fileUniqueType : FileUniqueType
  url : Option Str := none
  mediaId : Option ℤ := none
  volumeId : Option ℤ := none
  localId : Option ℤ := none
  deriving DecidableEq

/-- `struct.unpack` of all that is left of the buffer. -/
def unpackRest (ws : List ℕ) : Reader Exc (Struct.Fields ws) := fun buffer =>
  let (bs, buffer) := buffer.readAll
  (Struct.unpack ws bs).elim (.error structError) fun value => .ok (value, buffer)

namespace FileUniqueId

/-- What `decode` reads behind the type. -/
def decodeBody (fileUniqueId : List Char) : FileUniqueType → Reader Exc FileUniqueId
  | .web => do
    let url ← fun buffer => .ok (String.read buffer)
    return { fileUniqueType := .web, url := some url }
  | .photo => do
    let (volumeId, localId) ← unpackRest [8, 4]
    return { fileUniqueType := .photo, volumeId := some volumeId, localId := some localId }
  | .document => do
    let mediaId ← unpackRest [8]
    return { fileUniqueType := .document, mediaId := some mediaId }
  | t => throw (.valueError ("Unknown decoder for file_unique_type " ++ toString t.toInt ++
      " of file_unique_id " ++ String.ofList fileUniqueId))

/-- What `decode` reads from the buffer. -/
def decodeBuffer (fileUniqueId : List Char) : Reader Exc FileUniqueId := do
  let n ← unpack [4]
  match FileUniqueType.ofInt? n with
  | none => throw (.valueError ("Unknown file_unique_type " ++ toString n ++
      " of file_unique_id " ++ String.ofList fileUniqueId))
  | some t => decodeBody fileUniqueId t

def decode (fileUniqueId : List Char) : Except Exc FileUniqueId := do
  let encoded ← (b64Decode fileUniqueId).mapError .valueError
  (decodeBuffer fileUniqueId ⟨rleDecode encoded, 0⟩).map Prod.fst

/-- `struct.pack("<s", s)`: one byte, a zero where there is none. -/
def packOne (s : Bytes) : Bytes := [s.headD 0]

/-- The bytes that `encode` makes into a text. -/
def serialise (u : FileUniqueId) : Except Exc Bytes :=
  match u.fileUniqueType with
  | .web =>
    match u.url with
    | none => .error (.other "AttributeError")
    | some url => do
      let url ← String.new url
      let head ← pack [(4, some u.fileUniqueType.toInt)]
      return head ++ packOne url
  | .photo => pack [(4, some u.fileUniqueType.toInt), (8, u.volumeId), (4, u.localId)]
  | .document => pack [(4, some u.fileUniqueType.toInt), (8, u.mediaId)]
  | t => .error (.valueError ("Unknown encoder for file_unique_type " ++ toString t.toInt))

def encode (u : FileUniqueId) : Except Exc (List Char) := do
  let string ← u.serialise
  match rleEncode string with
  | some bs => .ok (b64Encode bs)
  | none => .error (.valueError "bytes must be in range(0, 256)")

/-! ### The round trip -/

/-- The ids of the three types that are encoded, with numbers of their widths. -/
inductive Known
  | web (url : Str)
  | photo (volumeId localId : ℤ) (hvolume : Fits 8 volumeId) (hlocal : Fits 4 localId)
  | document (mediaId : ℤ) (hmedia : Fits 8 mediaId)

def Known.id : Known → FileUniqueId
  | web url => { fileUniqueType := .web, url := some url }
  | photo volumeId localId _ _ =>
    { fileUniqueType := .photo, volumeId := some volumeId, localId := some localId }
  | document mediaId _ => { fileUniqueType := .document, mediaId := some mediaId }

/-- The bytes of an id become a text, and the text the bytes. -/
theorem encode_decode {u : FileUniqueId} {bs : Bytes} (h : u.serialise = .ok bs)
    (hlen : bs.length < 256) : ∃ text, u.encode = .ok text ∧
      u.encode >>= decode = (decodeBuffer text ⟨bs, 0⟩).map Prod.fst := by
  obtain ⟨coded, hcoded, hdecoded⟩ := Option.map_eq_some_iff.mp
    (rleDecode_rleEncode (ShortZeroRuns.of_length_lt hlen))
  have hencode : u.encode = .ok (b64Encode coded) := by
    rw [encode, h]
    change (match rleEncode bs with | some bs => _ | none => _) = _
    rw [hcoded]
  refine ⟨b64Encode coded, hencode, ?_⟩
  rw [hencode]
  change decode (b64Encode coded) = _
  rw [decode, b64Decode_b64Encode]
  change (decodeBuffer _ ⟨rleDecode coded, 0⟩).map Prod.fst = _
  rw [hdecoded]

/-- The bytes of a first number, and behind them those of the others. -/
theorem pack_first {n : ℤ} {numbers : List (ℕ × Option ℤ)} {ws : List ℕ}
    {value : Struct.Fields ws} (hn : Fits 4 n) (h : Packs numbers ws value) :
    ∃ head tail, pack ((4, some n) :: numbers) = .ok (head ++ tail) ∧
      Reads (unpack [4]) head n ∧ head.length = 4 ∧ tail.length = ws.sum ∧
      Struct.unpack ws tail = some value := by
  obtain ⟨head, hhead, hlen, hvalue⟩ := Struct.exists_packSigned hn
  obtain ⟨tail, htail, hunpack⟩ := h
  have hpack : pack ((4, some n) :: numbers) = .ok (head ++ tail) := by
    simp [pack, Struct.pack, hhead, htail]
  have hfirst : Struct.unpack [4] head = some n := by
    rw [Struct.unpack, if_pos (by simpa using hlen)]
    exact congrArg some hvalue
  exact ⟨head, tail, hpack, unpack_reads hfirst, hlen,
    (Option.ite_none_right_eq_some.mp hunpack).1, hunpack⟩

theorem unpackRest_eq {ws : List ℕ} {tail : Bytes} {value : Struct.Fields ws}
    (h : Struct.unpack ws tail = some value) (head : Bytes) :
    unpackRest ws ⟨head ++ tail, head.length⟩ =
      .ok (value, (ByteBuffer.mk (head ++ tail) head.length).readAll.2) := by
  have hrest : (ByteBuffer.mk (head ++ tail) head.length).readAll.1 = tail :=
    (ByteBuffer.fst_readAll _).trans (ByteBuffer.rest_append head tail)
  simp only [unpackRest, hrest, h, Option.elim_some]

theorem decodeBuffer_eq {t : FileUniqueType} {head : Bytes} (h : Reads (unpack [4]) head t.toInt)
    (text : List Char) (tail : Bytes) : decodeBuffer text ⟨head ++ tail, 0⟩ =
      decodeBody text t ⟨head ++ tail, head.length⟩ := by
  have hread := h.run_start tail
  unfold decodeBuffer
  change (unpack [4]).run ⟨head ++ tail, 0⟩ >>= _ = _
  rw [hread]
  change (match FileUniqueType.ofInt? t.toInt with | none => _ | some t => decodeBody text t) _ = _
  rw [t.ofInt_toInt.2]

/-- An id is decoded from its text. -/
def RoundTrip (u : FileUniqueId) : Prop := u.encode >>= decode = .ok u

theorem roundTrip_photo {volumeId localId : ℤ} (hvolume : Fits 8 volumeId)
    (hlocal : Fits 4 localId) : RoundTrip (Known.photo volumeId localId hvolume hlocal).id := by
  obtain ⟨head, tail, hpack, hreads, hhead, htail, hunpack⟩ :=
    pack_first FileUniqueType.photo.ofInt_toInt.1 (Packs.cons hvolume (Packs.single hlocal))
  obtain ⟨text, -, htrip⟩ := encode_decode (u := (Known.photo volumeId localId hvolume hlocal).id)
    hpack (by rw [List.length_append, hhead, htail]; decide)
  rw [RoundTrip, htrip, decodeBuffer_eq hreads]
  change ((unpackRest [8, 4] ⟨head ++ tail, head.length⟩ >>= _ : Except Exc _)).map Prod.fst = _
  rw [unpackRest_eq hunpack head]
  rfl

theorem roundTrip_document {mediaId : ℤ} (hmedia : Fits 8 mediaId) :
    RoundTrip (Known.document mediaId hmedia).id := by
  obtain ⟨head, tail, hpack, hreads, hhead, htail, hunpack⟩ :=
    pack_first FileUniqueType.document.ofInt_toInt.1 (Packs.single hmedia)
  obtain ⟨text, -, htrip⟩ := encode_decode (u := (Known.document mediaId hmedia).id)
    hpack (by rw [List.length_append, hhead, htail]; decide)
  rw [RoundTrip, htrip, decodeBuffer_eq hreads]
  change ((unpackRest [8] ⟨head ++ tail, head.length⟩ >>= _ : Except Exc _)).map Prod.fst = _
  rw [unpackRest_eq hunpack head]
  rfl

/-- Behind the length of a string nothing is read where nothing is there. -/
theorem read_length_only (head : Bytes) (b : UInt8) :
    (String.read ⟨head ++ [b], head.length⟩).1 = [] := by
  have hfirst : ByteBuffer.read 1 ⟨head ++ [b], head.length⟩ =
      ([b], ⟨head ++ [b], head.length + 1⟩) := by
    simpa using ByteBuffer.read_append head [b] []
  have hend : ∀ n : ℤ, ByteBuffer.read n ⟨head ++ [b], head.length + 1⟩ =
      ([], ⟨head ++ [b], head.length + 1⟩) := by
    intro n
    have hrest : (ByteBuffer.mk (head ++ [b]) (head.length + 1)).rest = [] := by
      rw [ByteBuffer.rest, List.drop_eq_nil_iff]
      simp
    rw [ByteBuffer.read, hrest, List.take_nil, ite_self]
    rfl
  have hread : (Bytes.read ⟨head ++ [b], head.length⟩).1 = [] := by
    unfold Bytes.read
    simp only [hfirst, hend]
    split_ifs
    · rfl
    · rfl
  rw [String.read]
  change Utf8.decodeReplace (Bytes.read _).1 = []
  rw [hread]
  rfl

/-- Any url becomes an empty one. -/
theorem trip_web {url : Str} {w : Bytes} (h : String.new url = .ok w) :
    (Known.web url).id.encode >>= decode = .ok (Known.web []).id := by
  obtain ⟨head, tail, hpack, hreads, hhead, htail, -⟩ :=
    pack_first FileUniqueType.web.ofInt_toInt.1 (⟨[], rfl, rfl⟩ : Packs [] [] ())
  obtain rfl : tail = [] := List.length_eq_zero_iff.mp htail
  rw [List.append_nil] at hpack
  have hserialise : (Known.web url).id.serialise = .ok (head ++ packOne w) := by
    simp only [serialise, Known.id, h, hpack]
    rfl
  obtain ⟨text, -, htrip⟩ := encode_decode hserialise (by
    rw [List.length_append, hhead, packOne, List.length_singleton]
    decide)
  rw [htrip, decodeBuffer_eq hreads]
  change Except.ok ({ fileUniqueType := .web, url := some (String.read ⟨_, _⟩).1 } : FileUniqueId) = _
  rw [packOne, read_length_only]
  rfl

/-- Of a web location only an empty url comes back. -/
theorem roundTrip_web_iff (url : Str) : RoundTrip (Known.web url).id ↔ url = [] := by
  constructor
  · intro h
    obtain ⟨text, hencode, -⟩ := bind_eq_ok.mp h
    obtain ⟨bs, hserialise, -⟩ := bind_eq_ok.mp hencode
    obtain ⟨w, hw, -⟩ := bind_eq_ok.mp hserialise
    have hsame := Except.ok.inj ((trip_web hw).symm.trans h)
    exact (Option.some.inj (congrArg FileUniqueId.url hsame)).symm
  · rintro rfl
    exact trip_web (w := [0, 0, 0, 0]) rfl

/-- The three types come back, but for a url. -/
theorem uniqueId_roundTrip_iff (k : Known) :
    RoundTrip k.id ↔ ∀ url, k.id.url = some url → url = [] := by
  cases k with
  | web url =>
    rw [roundTrip_web_iff]
    exact ⟨fun h url' h' => Option.some.inj h' ▸ h, fun h => h url rfl⟩
  | photo volumeId localId hvolume hlocal =>
    exact iff_of_true (roundTrip_photo hvolume hlocal) fun _ h => nomatch h
  | document mediaId hmedia => exact iff_of_true (roundTrip_document hmedia) fun _ h => nomatch h

/-- The url `a`. -/
theorem url_lost : ¬RoundTrip (Known.web [97]).id := by
  rw [roundTrip_web_iff]
  simp

end FileUniqueId

end AllInOneBackup.Kurigram.FileIds
