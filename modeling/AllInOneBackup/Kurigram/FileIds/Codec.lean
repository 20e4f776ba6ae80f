import AllInOneBackup.Kurigram.FileIds.Text
import AllInOneBackup.Kurigram.Raw.Strings

/-! `FileId`: its fields are packed into bytes, the version at the end, and the bytes become the
text of the id. Which fields there are depends on two flags in the file type, on the version and,
for photos, on the source of the thumbnail. -/

namespace AllInOneBackup.Kurigram.FileIds

open Bytes Raw Raising
open Struct (Reader Reads Packs Fits)

/-! ### Types -/

inductive FileType
  | thumbnail
  | chatPhoto
  | photo
  | voice
  | video
  | document
  | encrypted
  | temp
  | sticker
  | audio
  | animation
  | encryptedThumbnail
  | wallpaper
  | videoNote
  | secureRaw
  | secure
  | background
  | documentAsFile
  deriving DecidableEq

namespace FileType

/-- In the order of their values, from zero. -/
def all : List FileType :=
  [thumbnail, chatPhoto, photo, voice, video, document, encrypted, temp, sticker, audio, animation,
    encryptedThumbnail, wallpaper, videoNote, secureRaw, secure, background, documentAsFile]

def toInt (t : FileType) : ℤ := all.idxOf t

def ofInt? (n : ℤ) : Option FileType := if n < 0 then none else all[n.toNat]?

/-- `t in PHOTO_TYPES`. -/
def isPhoto : FileType → Bool
  | thumbnail | chatPhoto | photo | wallpaper | encryptedThumbnail => true
  | _ => false

/-- `n in DOCUMENT_TYPES`. -/
def isDocument (n : ℤ) : Bool := (ofInt? n).any fun t => !t.isPhoto

end FileType

inductive ThumbnailSource
  | legacy
  | thumbnail
  | chatPhotoSmall
  | chatPhotoBig
  | stickerSetThumbnail
  | fullLegacy
  | chatPhotoSmallLegacy
  | chatPhotoBigLegacy
  | stickerSetThumbnailLegacy
  | stickerSetThumbnailVersion
  deriving DecidableEq

namespace ThumbnailSource

def all : List ThumbnailSource :=
  [legacy, thumbnail, chatPhotoSmall, chatPhotoBig, stickerSetThumbnail, fullLegacy,
    chatPhotoSmallLegacy, chatPhotoBigLegacy, stickerSetThumbnailLegacy, stickerSetThumbnailVersion]

def toInt (t : ThumbnailSource) : ℤ := all.idxOf t

def ofInt? (n : ℤ) : Option ThumbnailSource := if n < 0 then none else all[n.toNat]?

end ThumbnailSource

def noVolumeAndLocalIdMinor : ℤ := 32

/-- The bits of `WEB_LOCATION_FLAG` and of `FILE_REFERENCE_FLAG`. -/
def webLocationBit : ℕ := 24

def fileReferenceBit : ℕ := 25

/-- `n & 1 << k`, in two's complement. -/
def hasFlag (k : ℕ) (n : ℤ) : Bool := n / 2 ^ k % 2 = 1

/-- `n | 1 << k`. -/
def setFlag (k : ℕ) (n : ℤ) : ℤ := if hasFlag k n then n else n + 2 ^ k

/-- `n & ~(1 << k)`. -/
def clearFlag (k : ℕ) (n : ℤ) : ℤ := if hasFlag k n then n - 2 ^ k else n

/-! ### Exceptions -/

def structError : Exc := .other "struct.error"

def pack (numbers : List (ℕ × Option ℤ)) : Except Exc Bytes :=
  (Struct.pack numbers).elim (.error structError) .ok

/-- `struct.unpack` of as many bytes of the buffer as the widths ask for. -/
def unpack (ws : List ℕ) : Reader Exc (Struct.Fields ws) := fun buffer =>
  let (bs, buffer) := buffer.read ws.sum
  (Struct.unpack ws bs).elim (.error structError) fun value => .ok (value, buffer)

/-- `ord(s)`. -/
def ord (s : Str) : Except Exc ℤ :=
  match s with
  | [c] => .ok c.val
  | _ => .error (.other "ord() expected a character")

/-- `chr(n)`. -/
def chr (n : ℤ) : Except Exc Str :=
  if h : 0 ≤ n ∧ n < 0x110000 then .ok [⟨n.toNat, by omega⟩]
  else .error (.valueError "chr() arg not in range(0x110000)")

/-! ### The tail of a photo -/

structure PhotoTail where
  volumeId : Option ℤ := none
  localId : Option ℤ := none
  secret : Option ℤ := none
  thumbnailFileType : Option ℤ := none
  thumbnailSize : Str := []
  chatId : Option ℤ := none
  chatAccessHash : Option ℤ := none
  stickerSetId : Option ℤ := none
  stickerSetAccessHash : Option ℤ := none
  stickerSetVersion : Option ℤ := none

def readPhotoTail : ThumbnailSource → Reader Exc PhotoTail
  | .legacy => do
    let secret ← unpack [8]
    return { secret := some secret }
  | .thumbnail => do
    let (thumbnailFileType, thumbnailSize) ← unpack [4, 4]
    let thumbnailSize ← chr thumbnailSize
    return { thumbnailFileType := some thumbnailFileType, thumbnailSize }
  | .chatPhotoSmall | .chatPhotoBig => do
    let (chatId, chatAccessHash) ← unpack [8, 8]
    return { chatId := some chatId, chatAccessHash := some chatAccessHash }
  | .stickerSetThumbnail => do
    let (stickerSetId, stickerSetAccessHash) ← unpack [8, 8]
    return { stickerSetId := some stickerSetId, stickerSetAccessHash := some stickerSetAccessHash }
  | .fullLegacy => do
    let (volumeId, secret, localId) ← unpack [8, 8, 4]
    return { volumeId := some volumeId, secret := some secret, localId := some localId }
  | .chatPhotoSmallLegacy | .chatPhotoBigLegacy => do
    let (chatId, chatAccessHash, volumeId, localId) ← unpack [8, 8, 8, 4]
    return {
      chatId := some chatId
      chatAccessHash := some chatAccessHash
      volumeId := some volumeId
      localId := some localId }
  | .stickerSetThumbnailLegacy => do
    let (stickerSetId, stickerSetAccessHash, volumeId, localId) ← unpack [8, 8, 8, 4]
    return {
      stickerSetId := some stickerSetId
      stickerSetAccessHash := some stickerSetAccessHash
      volumeId := some volumeId
      localId := some localId }
  | .stickerSetThumbnailVersion => do
    let (stickerSetId, stickerSetAccessHash, stickerSetVersion) ← unpack [8, 8, 4]
    return {
      stickerSetId := some stickerSetId
      stickerSetAccessHash := some stickerSetAccessHash
      stickerSetVersion := some stickerSetVersion }

/-! ### The file id -/

/-- With the fields that a photo's tail fills. -/
structure FileId extends PhotoTail where
  major : ℤ := 4
  minor : ℤ := 30
  fileType : FileType
  dcId : ℤ
  fileReference : Bytes := []
  url : Option Str := none
  mediaId : Option ℤ := none
  accessHash : Option ℤ := none
  thumbnailSource : Option ThumbnailSource := none

def writePhotoTail (f : FileId) : Except Exc Bytes :=
  match f.thumbnailSource with
  | some .legacy => pack [(8, f.secret)]
  | some .thumbnail => do
    let thumbnailSize ← ord f.thumbnailSize
    pack [(4, f.thumbnailFileType), (4, some thumbnailSize)]
  | some .chatPhotoSmall | some .chatPhotoBig => pack [(8, f.chatId), (8, f.chatAccessHash)]
  | some .stickerSetThumbnail => pack [(8, f.stickerSetId), (8, f.stickerSetAccessHash)]
  | some .fullLegacy => pack [(8, f.volumeId), (8, f.secret), (4, f.localId)]
  | some .chatPhotoSmallLegacy | some .chatPhotoBigLegacy =>
    pack [(8, f.chatId), (8, f.chatAccessHash), (8, f.volumeId), (4, f.localId)]
  | some .stickerSetThumbnailLegacy =>
    pack [(8, f.stickerSetId), (8, f.stickerSetAccessHash), (8, f.volumeId),
      (4, f.localId)]
  | some .stickerSetThumbnailVersion =>
    pack [(8, f.stickerSetId), (8, f.stickerSetAccessHash), (4, f.stickerSetVersion)]
  | none => .error (.valueError "No layout for thumbnail_source: None")

namespace FileId

/-- The part of `encode` for a photo. -/
def packPhoto (f : FileId) (major minor : ℤ) : Except Exc Bytes := do
  let hasVolumeAndLocalId := minor < noVolumeAndLocalIdMinor
  let volumeId ← if hasVolumeAndLocalId then pack [(8, f.volumeId)] else .ok []
  let source ←
    if major ≥ 4 then pack [(4, f.thumbnailSource.map ThumbnailSource.toInt)] else .ok []
  let tail ← writePhotoTail f
  let localId ← if hasVolumeAndLocalId then pack [(4, f.localId)] else .ok []
  return volumeId ++ source ++ tail ++ localId

/-- The bytes that `encode` makes into a text. -/
def serialise (f : FileId) (major minor : ℤ) : Except Exc Bytes := do
  let fileType := f.fileType.toInt
  let hasUrl := f.url.any (· ≠ [])
  let fileType := if hasUrl then setFlag webLocationBit fileType else fileType
  let fileType := if f.fileReference ≠ [] then setFlag fileReferenceBit fileType else fileType
  let head ← pack [(4, some fileType), (4, some f.dcId)]
  let url ← if hasUrl then String.new (f.url.getD []) else .ok []
  let fileReference ← if f.fileReference ≠ [] then Bytes.new f.fileReference else .ok []
  let media ← pack [(8, f.mediaId), (8, f.accessHash)]
  let body ←
    if f.fileType.isPhoto then f.packPhoto major minor
    else if FileType.isDocument fileType then pack [(4, some minor), (4, some major)]
    else .ok []
  let version ← pack [(1, some minor), (1, some major)]
  return head ++ url ++ fileReference ++ media ++ body ++ version

def encode (f : FileId) (major minor : Option ℤ) : Except Exc (List Char) := do
  let buffer ← f.serialise (major.getD f.major) (minor.getD f.minor)
  match rleEncode buffer with
  | some bs => .ok (b64Encode bs)
  | none => .error (.valueError "bytes must be in range(0, 256)")

/-- The part of `decode` for a photo. -/
def readPhoto (fileId : List Char) (major minor : ℤ) : Reader Exc (ThumbnailSource × PhotoTail) := do
  let hasVolumeAndLocalId := minor < noVolumeAndLocalIdMinor
  let volumeId ← if hasVolumeAndLocalId then some <$> unpack [8] else pure none
  let source ← if major < 4 then pure 0 else unpack [4]
  match ThumbnailSource.ofInt? source with
  | none => throw (.valueError ("Unknown thumbnail_source " ++ toString source ++ " of file_id " ++
      String.ofList fileId))
  | some thumbnailSource =>
    let tail ← readPhotoTail thumbnailSource
    if hasVolumeAndLocalId then
      let localId ← unpack [4]
      return (thumbnailSource, { tail with volumeId := volumeId, localId := some localId })
    else return (thumbnailSource, tail)

/-- What `decode` reads behind the type and the data center, where there is no web location. -/
def decodeBody (fileId : List Char) (major minor : ℤ) (fileType : FileType) (dcId : ℤ)
    (hasFileReference : Bool) : Reader Exc FileId := do
  let fileReference ← if hasFileReference then fun buffer => .ok (Bytes.read buffer) else pure []
  let (mediaId, accessHash) ← unpack [8, 8]
  if fileType.isPhoto then
    let (thumbnailSource, tail) ← readPhoto fileId major minor
    return { tail with
      major, minor, fileType, dcId, fileReference
      mediaId := some mediaId
      accessHash := some accessHash
      thumbnailSource := some thumbnailSource }
  else
    -- every other type is in `DOCUMENT_TYPES`
    return {
      major, minor, fileType, dcId, fileReference
      mediaId := some mediaId
      accessHash := some accessHash }

/-- What `decode` reads from the buffer without the version. -/
def decodeBuffer (fileId : List Char) (major minor : ℤ) : Reader Exc FileId := do
  let (flagged, dcId) ← unpack [4, 4]
  let hasWebLocation := hasFlag webLocationBit flagged
  let hasFileReference := hasFlag fileReferenceBit flagged
  let n := clearFlag fileReferenceBit (clearFlag webLocationBit flagged)
  match FileType.ofInt? n with
  | none => throw (.valueError ("Unknown file_type " ++ toString n ++ " of file_id " ++
      String.ofList fileId))
  | some fileType =>
    if hasWebLocation then
      let url ← fun buffer => .ok (String.read buffer)
      let accessHash ← unpack [8]
      return {
        major, minor, fileType, dcId
        url := some url
        accessHash := some accessHash }
    else decodeBody fileId major minor fileType dcId hasFileReference

def decode (fileId : List Char) : Except Exc FileId := do
  let encoded ← (b64Decode fileId).mapError .valueError
  let decoded := rleDecode encoded
  match decoded.getLast?, decoded.dropLast.getLast? with
  | none, _ => .error (.other "IndexError: index out of range")
  | some major, minor =>
    if major.toNat < 4 then
      (decodeBuffer fileId major.toNat 0 ⟨sliceTo decoded (-1), 0⟩).map Prod.fst
    else match minor with
      | none => .error (.other "IndexError: index out of range")
      | some minor =>
        (decodeBuffer fileId major.toNat minor.toNat ⟨sliceTo decoded (-2), 0⟩).map Prod.fst

end FileId

/-! ### What was packed is unpacked -/

theorem unpack_reads {ws : List ℕ} {bs : Bytes} {value : Struct.Fields ws}
    (h : Struct.unpack ws bs = some value) : Reads (unpack ws) bs value := by
  intro pre post
  have hlen : bs.length = ws.sum := (Option.ite_none_right_eq_some.mp h).1
  have hread := ByteBuffer.read_append pre bs post
  rw [hlen] at hread ⊢
  change unpack ws _ = _
  simp only [unpack, hread, h, Option.elim_some]

theorem pack_reads {numbers : List (ℕ × Option ℤ)} {ws : List ℕ} {value : Struct.Fields ws}
    (h : Struct.Packs numbers ws value) :
    ∃ bs, pack numbers = .ok bs ∧ Reads (unpack ws) bs value := by
  obtain ⟨bs, hpack, hunpack⟩ := h
  exact ⟨bs, by rw [pack, hpack]; rfl, unpack_reads hunpack⟩

/-- There is a number, and it fits into the width. -/
def Holds (w : ℕ) (value : Option ℤ) : Prop := ∃ n, value = some n ∧ Struct.Fits w n

/-- The fields of a tail that belong to the source, with the others as they are by default. -/
def own (tail : PhotoTail) : ThumbnailSource → PhotoTail
  | .legacy => { secret := tail.secret }
  | .thumbnail =>
    { thumbnailFileType := tail.thumbnailFileType, thumbnailSize := tail.thumbnailSize }
  | .chatPhotoSmall | .chatPhotoBig => { chatId := tail.chatId, chatAccessHash := tail.chatAccessHash }
  | .stickerSetThumbnail =>
    { stickerSetId := tail.stickerSetId, stickerSetAccessHash := tail.stickerSetAccessHash }
  | .fullLegacy => { volumeId := tail.volumeId, secret := tail.secret, localId := tail.localId }
  | .chatPhotoSmallLegacy | .chatPhotoBigLegacy =>
    { chatId := tail.chatId
      chatAccessHash := tail.chatAccessHash
      volumeId := tail.volumeId
      localId := tail.localId }
  | .stickerSetThumbnailLegacy =>
    { stickerSetId := tail.stickerSetId
      stickerSetAccessHash := tail.stickerSetAccessHash
      volumeId := tail.volumeId
      localId := tail.localId }
  | .stickerSetThumbnailVersion =>
    { stickerSetId := tail.stickerSetId
      stickerSetAccessHash := tail.stickerSetAccessHash
      stickerSetVersion := tail.stickerSetVersion }

/-- The fields that belong to the source are filled, with numbers in range and one letter. -/
def OwnFilled (tail : PhotoTail) : ThumbnailSource → Prop
  | .legacy => Holds 8 tail.secret
  | .thumbnail => Holds 4 tail.thumbnailFileType ∧ ∃ c, tail.thumbnailSize = [c]
  | .chatPhotoSmall | .chatPhotoBig => Holds 8 tail.chatId ∧ Holds 8 tail.chatAccessHash
  | .stickerSetThumbnail => Holds 8 tail.stickerSetId ∧ Holds 8 tail.stickerSetAccessHash
  | .fullLegacy => Holds 8 tail.volumeId ∧ Holds 8 tail.secret ∧ Holds 4 tail.localId
  | .chatPhotoSmallLegacy | .chatPhotoBigLegacy =>
    Holds 8 tail.chatId ∧ Holds 8 tail.chatAccessHash ∧ Holds 8 tail.volumeId ∧ Holds 4 tail.localId
  | .stickerSetThumbnailLegacy => Holds 8 tail.stickerSetId ∧ Holds 8 tail.stickerSetAccessHash ∧
      Holds 8 tail.volumeId ∧ Holds 4 tail.localId
  | .stickerSetThumbnailVersion => Holds 8 tail.stickerSetId ∧ Holds 8 tail.stickerSetAccessHash ∧
      Holds 4 tail.stickerSetVersion

theorem fits_codePoint (c : CodePoint) : Fits 4 c.val := by
  have hc := c.isLt
  simp only [Fits]
  omega

theorem chr_ord (c : CodePoint) : chr c.val = .ok [c] := by
  have hc := c.isLt
  rw [chr, dif_pos ⟨by omega, by omega⟩]
  simp

/-- The layouts of the tails, source by source. -/
theorem photoTail_reads {f : FileId} {source : ThumbnailSource}
    (hsource : f.thumbnailSource = some source) (h : OwnFilled f.toPhotoTail source) :
    ∃ bs, writePhotoTail f = .ok bs ∧ Reads (readPhotoTail source) bs (own f.toPhotoTail source) := by
  cases source with
  | legacy =>
    obtain ⟨n, hn, hfits⟩ := h
    obtain ⟨bs, hpack, hreads⟩ := pack_reads (.single hfits)
    exact ⟨bs, by simp [writePhotoTail, hsource, hn, hpack], hreads.bind_pure (by simp [own, hn])⟩
  | thumbnail =>
    obtain ⟨⟨n, hn, hfits⟩, c, hc⟩ := h
    obtain ⟨bs, hpack, hreads⟩ := pack_reads (.cons hfits (.single (fits_codePoint c)))
    refine ⟨bs, ?_, hreads.bind_pure ?_⟩
    · simp only [writePhotoTail, hsource, hc, ord, hn]
      exact hpack
    · simp only [chr_ord, own, hn, hc]
      rfl
  | chatPhotoSmall | chatPhotoBig | stickerSetThumbnail =>
    obtain ⟨⟨n, hn, hfits⟩, n', hn', hfits'⟩ := h
    obtain ⟨bs, hpack, hreads⟩ := pack_reads (.cons hfits (.single hfits'))
    exact ⟨bs, by simp [writePhotoTail, hsource, hn, hn', hpack],
      hreads.bind_pure (by simp [own, hn, hn'])⟩
  | fullLegacy | stickerSetThumbnailVersion =>
    obtain ⟨⟨n, hn, hfits⟩, ⟨n', hn', hfits'⟩, n'', hn'', hfits''⟩ := h
    obtain ⟨bs, hpack, hreads⟩ := pack_reads (.cons hfits (.cons hfits' (.single hfits'')))
    exact ⟨bs, by simp [writePhotoTail, hsource, hn, hn', hn'', hpack],
      hreads.bind_pure (by simp [own, hn, hn', hn''])⟩
  | chatPhotoSmallLegacy | chatPhotoBigLegacy | stickerSetThumbnailLegacy =>
    obtain ⟨⟨n, hn, hfits⟩, ⟨n', hn', hfits'⟩, ⟨v, hv, hv'⟩, l, hl, hl'⟩ := h
    obtain ⟨bs, hpack, hreads⟩ := pack_reads (.cons hfits (.cons hfits' (.cons hv' (.single hl'))))
    exact ⟨bs, by simp [writePhotoTail, hsource, hn, hn', hv, hl, hpack],
      hreads.bind_pure (by simp [own, hn, hn', hv, hl])⟩

/-- The file type with the flag of the reference. -/
def flagged (t : FileType) (hasFileReference : Bool) : ℤ :=
  if hasFileReference then setFlag fileReferenceBit t.toInt else t.toInt

theorem flagged_spec (t : FileType) (b : Bool) :
    Fits 4 (flagged t b) ∧ hasFlag webLocationBit (flagged t b) = false ∧
      hasFlag fileReferenceBit (flagged t b) = b ∧
      FileType.ofInt? (clearFlag fileReferenceBit (clearFlag webLocationBit (flagged t b))) =
        some t := by
  cases t <;> cases b <;> refine ⟨⟨?_, ?_⟩, ?_, ?_, ?_⟩ <;> decide

theorem ThumbnailSource.ofInt_toInt (t : ThumbnailSource) :
    Fits 4 t.toInt ∧ ThumbnailSource.ofInt? t.toInt = some t := by
  cases t <;> refine ⟨⟨?_, ?_⟩, ?_⟩ <;> decide

namespace FileId

/-- A file id without url, with its own fields filled and no others. -/
structure Filled (f : FileId) : Prop where
  url : f.url = none
  major : f.major = 4
  minor : 0 ≤ f.minor ∧ f.minor ≤ 127
  dcId : Fits 4 f.dcId
  mediaId : Holds 8 f.mediaId
  accessHash : Holds 8 f.accessHash
  photo : f.fileType.isPhoto = true → ∃ source, f.thumbnailSource = some source ∧
    OwnFilled f.toPhotoTail source ∧
    if f.minor < noVolumeAndLocalIdMinor then
      Holds 8 f.volumeId ∧ Holds 4 f.localId ∧ f.toPhotoTail =
        { own f.toPhotoTail source with volumeId := f.volumeId, localId := f.localId }
    else f.toPhotoTail = own f.toPhotoTail source
  document : f.fileType.isPhoto = false → f.thumbnailSource = none ∧ f.toPhotoTail = {}

theorem pack_version {minor : ℤ} (h : 0 ≤ minor ∧ minor ≤ 127) :
    pack [(1, some minor), (1, some 4)] = .ok [UInt8.ofNat minor.toNat, 4] := by
  have hminor : packSigned 1 minor = some [UInt8.ofNat minor.toNat] := by
    have hmod : minor % 256 ^ 1 = minor := Int.emod_eq_of_lt h.1 (by omega)
    rw [packSigned, if_pos ⟨by omega, by omega⟩, hmod]
    rfl
  have hmajor : packSigned 1 4 = some [4] := by decide
  simp [pack, Struct.pack, hminor, hmajor]

theorem photo_reads {f : FileId} (h : f.Filled) (hphoto : f.fileType.isPhoto = true)
    (text : List Char) : ∃ bs source, f.packPhoto 4 f.minor = .ok bs ∧
      f.thumbnailSource = some source ∧
      Reads (readPhoto text 4 f.minor) bs (source, f.toPhotoTail) := by
  obtain ⟨source, hsource, hown, hrest⟩ := h.photo hphoto
  obtain ⟨hfits, hofInt⟩ := source.ofInt_toInt
  obtain ⟨tag, htag, htagReads⟩ := pack_reads (.single hfits)
  obtain ⟨tail, htail, htailReads⟩ := photoTail_reads hsource hown
  by_cases hminor : f.minor < noVolumeAndLocalIdMinor
  · rw [if_pos hminor] at hrest
    obtain ⟨⟨v, hv, hvfits⟩, ⟨l, hl, hlfits⟩, heq⟩ := hrest
    obtain ⟨volume, hvolume, hvolumeReads⟩ := pack_reads (.single hvfits)
    obtain ⟨loc, hloc, hlocReads⟩ := pack_reads (.single hlfits)
    refine ⟨volume ++ (tag ++ (tail ++ loc)), source, ?_, hsource, ?_⟩
    · simp only [packPhoto, hminor, hv, hl, hsource, hvolume, hloc, htag, htail, if_true,
        Option.map_some, ge_iff_le, le_refl, List.append_assoc]
      rfl
    · simp only [readPhoto, hminor, if_true]
      refine (Struct.Reads.map hvolumeReads some).bind (htagReads.bind ?_)
      simp only [hofInt]
      rw [hv, hl] at heq
      exact htailReads.bind (hlocReads.bind_pure (congrArg (fun t => pure (source, t)) heq.symm))
  · rw [if_neg hminor] at hrest
    refine ⟨tag ++ tail, source, ?_, hsource, ?_⟩
    · simp only [packPhoto, hminor, hsource, htag, htail, if_true, if_false, Option.map_some,
        ge_iff_le, le_refl]
      exact congrArg Except.ok (List.append_nil _)
    · simp only [readPhoto, hminor, if_false, pure_bind]
      refine htagReads.bind ?_
      simp only [hofInt]
      exact htailReads.bind_pure (by rw [← hrest])

theorem reference_reads {reference : Bytes} (hlen : reference.length < 2 ^ 24) :
    ∃ bs, (if reference ≠ [] then Bytes.new reference else .ok []) = .ok bs ∧
      Reads (if reference ≠ [] then fun buffer => .ok (Bytes.read buffer) else pure [] :
        Reader Exc Bytes) bs reference := by
  by_cases hne : reference = []
  · subst hne
    exact ⟨[], rfl, .pure []⟩
  · obtain ⟨bs, hbs, hreads⟩ := Bytes.new_reads hlen
    exact ⟨bs, by rw [if_pos hne, hbs], by rw [if_pos hne]; exact hreads⟩

/-- The parts of the encoding, where there is no url. -/
theorem serialise_eq {f : FileId} {major minor : ℤ} {head reference media body version : Bytes}
    (hurl : f.url = none)
    (hhead : pack [(4, some (flagged f.fileType (f.fileReference ≠ []))), (4, some f.dcId)] =
      .ok head)
    (hreference : (if f.fileReference ≠ [] then Bytes.new f.fileReference else .ok []) =
      .ok reference)
    (hmedia : pack [(8, f.mediaId), (8, f.accessHash)] = .ok media)
    (hbody : (if f.fileType.isPhoto then f.packPhoto major minor
      else if FileType.isDocument (flagged f.fileType (f.fileReference ≠ [])) then
        pack [(4, some minor), (4, some major)]
      else .ok []) = .ok body)
    (hversion : pack [(1, some minor), (1, some major)] = .ok version) :
    f.serialise major minor = .ok (head ++ reference ++ media ++ body ++ version) := by
  have hflagged : flagged f.fileType (f.fileReference ≠ []) =
      if f.fileReference ≠ [] then setFlag fileReferenceBit f.fileType.toInt
      else f.fileType.toInt := by
    simp only [flagged, decide_eq_true_eq]
  rw [hflagged] at hhead hbody
  simp only [serialise, hurl, Option.any_none, Bool.false_eq_true, if_false, hhead, hmedia,
    hversion, ite_bind, hbody, hreference]
  exact congrArg Except.ok (by rw [List.append_nil])

/-- The bytes of a file id without its version; behind a document's fields there may be more. -/
theorem serialise_reads {f : FileId} (h : f.Filled) (hlen : f.fileReference.length < 2 ^ 24)
    (text : List Char) : ∃ content extra,
      f.serialise f.major f.minor =
        .ok (content ++ extra ++ [UInt8.ofNat f.minor.toNat, 4]) ∧
      Reads (decodeBuffer text 4 f.minor) content f := by
  obtain ⟨hfits, hweb, hflag, hofInt⟩ := flagged_spec f.fileType (f.fileReference ≠ [])
  obtain ⟨head, hhead, hheadReads⟩ := pack_reads (.cons hfits (.single h.dcId))
  obtain ⟨reference, hreference, hreferenceReads⟩ := reference_reads hlen
  obtain ⟨m, hm, hmfits⟩ := h.mediaId
  obtain ⟨a, ha, hafits⟩ := h.accessHash
  obtain ⟨media, hmedia, hmediaReads⟩ := pack_reads (.cons hmfits (.single hafits))
  rw [← hm, ← ha] at hmedia
  have hversion : pack [(1, some f.minor), (1, some f.major)] = _ := h.major ▸ pack_version h.minor
  -- what is read behind the head, to be followed by the photo or by nothing
  have hbody {rest : Bytes}
      (hrest : Reads (do
        if f.fileType.isPhoto then
          let (thumbnailSource, tail) ← readPhoto text 4 f.minor
          return { tail with
            major := 4
            minor := f.minor
            fileType := f.fileType
            dcId := f.dcId
            fileReference := f.fileReference
            mediaId := some m
            accessHash := some a
            thumbnailSource := some thumbnailSource }
        else
          return {
            major := 4
            minor := f.minor
            fileType := f.fileType
            dcId := f.dcId
            fileReference := f.fileReference
            mediaId := some m
            accessHash := some a }) rest f) :
      Reads (decodeBuffer text 4 f.minor) (head ++ (reference ++ (media ++ rest))) f := by
    refine hheadReads.bind ?_
    simp only [hofInt, hweb, hflag, decodeBody, ite_bind, Bool.false_eq_true, if_false,
      decide_eq_true_eq]
    exact hreferenceReads.bind (hmediaReads.bind hrest)
  by_cases hphoto : f.fileType.isPhoto = true
  · obtain ⟨photo, source, hpack, hsource, hphotoReads⟩ := photo_reads h hphoto text
    refine ⟨head ++ (reference ++ (media ++ photo)), [], ?_, hbody ?_⟩
    · rw [serialise_eq h.url hhead hreference hmedia (by rw [if_pos hphoto, h.major]; exact hpack)
        hversion]
      simp only [List.append_assoc, List.append_nil]
    · rw [if_pos hphoto]
      refine hphotoReads.bind_pure ?_
      have hf : f = { f.toPhotoTail with
          major := 4
          minor := f.minor
          fileType := f.fileType
          dcId := f.dcId
          fileReference := f.fileReference
          mediaId := some m
          accessHash := some a
          thumbnailSource := some source } := by
        rw [← h.major, ← hm, ← ha, ← hsource, ← h.url]
      exact congrArg pure hf.symm
  · obtain ⟨hsource, htail⟩ := h.document (by simpa using hphoto)
    obtain ⟨extra, hextra⟩ : ∃ extra,
        (if FileType.isDocument (flagged f.fileType (f.fileReference ≠ [])) then
          pack [(4, some f.minor), (4, some f.major)]
        else .ok []) = .ok extra := by
      obtain ⟨hlo, hhi⟩ := h.minor
      have hminor : Fits 4 f.minor := ⟨by omega, by omega⟩
      have hmajor : Fits 4 f.major := by rw [h.major]; exact ⟨by omega, by omega⟩
      obtain ⟨extra, hpack, -⟩ := pack_reads (.cons hminor (.single hmajor))
      split
      · exact ⟨extra, hpack⟩
      · exact ⟨[], rfl⟩
    refine ⟨head ++ (reference ++ (media ++ [])), extra, ?_, hbody ?_⟩
    · rw [serialise_eq h.url hhead hreference hmedia (by rw [if_neg hphoto]; exact hextra) hversion]
      simp only [List.append_assoc, List.nil_append]
    · rw [if_neg hphoto]
      have hf : f = ({
          major := 4
          minor := f.minor
          fileType := f.fileType
          dcId := f.dcId
          fileReference := f.fileReference
          mediaId := some m
          accessHash := some a } : FileId) := by
        rw [← h.major, ← hm, ← ha]
        obtain ⟨tail, major, minor, fileType, dcId, reference, url, mediaId, accessHash, source⟩ := f
        obtain rfl : url = none := h.url
        obtain rfl : source = none := hsource
        obtain rfl : tail = {} := htail
        rfl
      exact hf ▸ .pure f

/-- What is written of bytes that were packed. -/
theorem encode_of_serialise {f : FileId} {bs coded : Bytes}
    (h : f.serialise f.major f.minor = .ok bs) (hrle : rleEncode bs = some coded) :
    f.encode none none = .ok (b64Encode coded) := by
  simp only [encode, Option.getD_none, h]
  change (match rleEncode bs with | some bs => _ | none => _) = _
  rw [hrle]

/-- The last two bytes are the version. -/
theorem decode_b64Encode {bs : Bytes} {major minor : UInt8}
    (hlast : (rleDecode bs).getLast? = some major)
    (hprev : (rleDecode bs).dropLast.getLast? = some minor) :
    decode (b64Encode bs) =
      if major.toNat < 4 then
        (decodeBuffer (b64Encode bs) major.toNat 0 ⟨sliceTo (rleDecode bs) (-1), 0⟩).map Prod.fst
      else
        (decodeBuffer (b64Encode bs) major.toNat minor.toNat ⟨sliceTo (rleDecode bs) (-2), 0⟩).map
          Prod.fst := by
  rw [decode, b64Decode_b64Encode]
  change (match (rleDecode bs).getLast?, (rleDecode bs).dropLast.getLast? with
    | none, _ => _
    | some major, minor => _) = _
  rw [hlast, hprev]

/-- A filled file id is read back from its text. -/
theorem decode_encode {f : FileId} (h : f.Filled) (hlen : f.fileReference.length < 2 ^ 24)
    (hruns : ∀ buffer, f.serialise f.major f.minor = .ok buffer → ShortZeroRuns buffer) :
    f.encode none none >>= decode = .ok f := by
  obtain ⟨bs, hbs⟩ : ∃ bs, f.encode none none = .ok (b64Encode bs) ∧
      f.serialise f.major f.minor = .ok (rleDecode bs) := by
    obtain ⟨content, extra, hserialise, -⟩ := serialise_reads h hlen []
    obtain ⟨bs, hrle, hdecode⟩ := Option.map_eq_some_iff.mp
      (rleDecode_rleEncode (hruns _ hserialise))
    exact ⟨bs, encode_of_serialise hserialise hrle, hdecode ▸ hserialise⟩
  obtain ⟨content, extra, hserialise, hreads⟩ := serialise_reads h hlen (b64Encode bs)
  have hdecoded : rleDecode bs = content ++ extra ++ [UInt8.ofNat f.minor.toNat, 4] :=
    Except.ok.inj (hbs.2.symm.trans hserialise)
  obtain ⟨hlo, hhi⟩ := h.minor
  have hminor : ((UInt8.ofNat f.minor.toNat).toNat : ℤ) = f.minor := by
    rw [UInt8.toNat_ofNat', Nat.mod_eq_of_lt (by omega), Int.toNat_of_nonneg hlo]
  have hbuffer : sliceTo (content ++ extra ++ [UInt8.ofNat f.minor.toNat, 4]) (-2) =
      content ++ extra := sliceTo_append_neg _ _ (List.cons_ne_nil _ _)
  have hlast : (rleDecode bs).getLast? = some 4 := by simp [hdecoded]
  have hprev : (rleDecode bs).dropLast.getLast? = some (UInt8.ofNat f.minor.toNat) := by
    rw [hdecoded, List.dropLast_append_of_ne_nil (List.cons_ne_nil _ _)]
    simp
  rw [hbs.1]
  change decode (b64Encode bs) = _
  rw [decode_b64Encode hlast hprev]
  change (decodeBuffer (b64Encode bs) 4 _ ⟨sliceTo (rleDecode bs) (-2), 0⟩).map Prod.fst = _
  rw [hdecoded, hbuffer, hminor]
  exact congrArg (Except.map Prod.fst) (hreads.run_start extra)

/-- Of a chat photo, in the layout with volume and local id. -/
def chatPhoto : FileId where
  fileType := .chatPhoto
  dcId := 2
  fileReference := [1, 0, 0, 0, 5]
  mediaId := some 6000000000
  accessHash := some (-7)
  thumbnailSource := some .chatPhotoBig
  volumeId := some 8
  localId := some (-9)
  chatId := some (-1001000000000)
  chatAccessHash := some 10

theorem chatPhoto_filled : chatPhoto.Filled where
  url := rfl
  major := rfl
  minor := by decide
  dcId := by constructor <;> decide
  mediaId := ⟨_, rfl, by constructor <;> decide⟩
  accessHash := ⟨_, rfl, by constructor <;> decide⟩
  photo _ := ⟨.chatPhotoBig, rfl,
    ⟨⟨_, rfl, by constructor <;> decide⟩, ⟨_, rfl, by constructor <;> decide⟩⟩,
    ⟨_, rfl, by constructor <;> decide⟩, ⟨_, rfl, by constructor <;> decide⟩, rfl⟩
  document h := nomatch h

theorem decode_encode_chatPhoto : chatPhoto.encode none none >>= decode = .ok chatPhoto := by
  refine decode_encode chatPhoto_filled (by decide) fun buffer h => .of_length_lt ?_
  have hlen : (chatPhoto.serialise chatPhoto.major chatPhoto.minor).toOption.all
      (·.length < 256) = true := by decide
  simpa [h, Except.toOption] using hlen

/-- `Bytes` has no length for the reference. -/
theorem serialise_ne_ok {f : FileId} {major minor : ℤ} (hurl : f.url = none)
    (hlen : 2 ^ 24 ≤ f.fileReference.length) (bs : Bytes) : f.serialise major minor ≠ .ok bs := by
  intro h
  simp only [serialise, hurl, Option.any_none, Bool.false_eq_true, if_false, ite_bind,
    bind_eq_ok] at h
  obtain ⟨head, -, _, -, reference, hreference, -⟩ := h
  have hne : f.fileReference ≠ [] := List.ne_nil_of_length_pos (by omega)
  rw [if_pos hne, Bytes.new_of_le hlen] at hreference
  exact nomatch hreference

theorem encode_long_reference : ¬∀ f : FileId, f.Filled →
    (∀ buffer, f.serialise f.major f.minor = .ok buffer → ShortZeroRuns buffer) →
      f.encode none none >>= decode = .ok f := by
  intro h
  let f : FileId :=
    { fileType := .document
      dcId := 2
      fileReference := List.replicate (2 ^ 24) 1
      mediaId := some 0
      accessHash := some 0 }
  have hfilled : f.Filled :=
    { url := rfl
      major := rfl
      minor := by decide
      dcId := by constructor <;> decide
      mediaId := ⟨0, rfl, by constructor <;> decide⟩
      accessHash := ⟨0, rfl, by constructor <;> decide⟩
      photo := fun h => nomatch h
      document := fun _ => ⟨rfl, rfl⟩ }
  have hlong (bs) : f.serialise f.major f.minor ≠ .ok bs :=
    serialise_ne_ok rfl (List.length_replicate.ge) bs
  obtain ⟨text, hencode, -⟩ := bind_eq_ok.mp (h f hfilled fun buffer hbuffer => absurd hbuffer (hlong _))
  obtain ⟨buffer, hbuffer, -⟩ := bind_eq_ok.mp hencode
  exact hlong buffer hbuffer

end FileId

end AllInOneBackup.Kurigram.FileIds
