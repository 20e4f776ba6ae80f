import AllInOneBackup.Kurigram.FileIds.Codec

/-! File ids of web locations. `decode` reads the access hash behind the url, and `encode` writes
the file reference there, if there is one, and the media id. -/

namespace AllInOneBackup.Kurigram.FileIds.FileId

open Bytes Raw Raising
open Struct (Reader Reads Packs Fits)

/-- The url and the access hash come back. -/
def WebRoundTrip (f : FileId) : Prop :=
  ∃ text g, f.encode none none = .ok text ∧ decode text = .ok g ∧ g.url = f.url ∧
    g.accessHash = f.accessHash

/-- What can be written and made into a text. -/
structure Encodable (f : FileId) (url : Str) : Prop where
  dcId : Fits 4 f.dcId
  version : Fits 1 f.minor ∧ Fits 1 f.major
  url : ∃ bs, Utf8.encode url = some bs ∧ bs.length < 2 ^ 24
  fileReference : f.fileReference.length < 2 ^ 24
  mediaId : Holds 8 f.mediaId
  accessHash : Holds 8 f.accessHash
  photo : f.fileType.isPhoto = true → ∃ bs, f.packPhoto f.major f.minor = .ok bs
  runs : ∀ bs, f.serialise f.major f.minor = .ok bs → ShortZeroRuns bs

/-- The eight bytes that are written behind the url are those of the access hash. -/
def AccessHashFollows (f : FileId) : Prop :=
  ∃ reference media, (if f.fileReference ≠ [] then Bytes.new f.fileReference else .ok []) =
    .ok reference ∧ pack [(8, f.mediaId)] = .ok media ∧
      f.accessHash = some (ofSignedLE ((reference ++ media).take 8))

/-- The file type with the flag of the url and, maybe, that of the reference. -/
def webFlagged (t : FileType) (hasFileReference : Bool) : ℤ :=
  if hasFileReference then setFlag fileReferenceBit (setFlag webLocationBit t.toInt)
  else setFlag webLocationBit t.toInt

theorem webFlagged_spec (t : FileType) (b : Bool) :
    Fits 4 (webFlagged t b) ∧ hasFlag webLocationBit (webFlagged t b) = true ∧
      FileType.isDocument (webFlagged t b) = false ∧
      FileType.ofInt? (clearFlag fileReferenceBit (clearFlag webLocationBit (webFlagged t b))) =
        some t := by
  cases t <;> cases b <;> refine ⟨⟨?_, ?_⟩, ?_, ?_, ?_⟩ <;> decide

/-! ### Packed numbers -/

theorem pack_eq_ok {numbers : List (ℕ × Option ℤ)} {bs : Bytes} :
    pack numbers = .ok bs ↔ Struct.pack numbers = some bs := by
  unfold pack
  cases Struct.pack numbers with
  | none => exact iff_of_false nofun nofun
  | some bs' => simp

theorem pack_cons_eq_ok {w : ℕ} {value : Option ℤ} {numbers : List (ℕ × Option ℤ)} {bs : Bytes} :
    pack ((w, value) :: numbers) = .ok bs ↔ ∃ one others, pack [(w, value)] = .ok one ∧
      pack numbers = .ok others ∧ one ++ others = bs := by
  cases value with
  | none => simp [pack_eq_ok, Struct.pack]
  | some n =>
    cases hone : packSigned w n with
    | none => simp [pack_eq_ok, Struct.pack, hone]
    | some one => simp [pack_eq_ok, Struct.pack, hone, Option.bind_eq_some_iff]

theorem pack_singleton_eq_ok {w : ℕ} {value : Option ℤ} {bs : Bytes} :
    pack [(w, value)] = .ok bs ↔ ∃ n, value = some n ∧ packSigned w n = some bs := by
  simp [pack_eq_ok, Struct.pack, Option.bind_eq_some_iff]

theorem pack_singleton_ok_iff {w : ℕ} {value : Option ℤ} :
    (∃ bs, pack [(w, value)] = .ok bs) ↔ Holds w value := by
  simp only [pack_singleton_eq_ok]
  constructor
  · rintro ⟨bs, n, rfl, h⟩
    exact ⟨n, rfl, (Option.ite_none_right_eq_some.mp h).1⟩
  · rintro ⟨n, rfl, h⟩
    exact ⟨_, n, rfl, if_pos h⟩

theorem length_of_pack_singleton {w : ℕ} {value : Option ℤ} {bs : Bytes}
    (h : pack [(w, value)] = .ok bs) : bs.length = w := by
  obtain ⟨n, -, hn⟩ := pack_singleton_eq_ok.mp h
  exact (packSigned_eq_some hn).1

theorem new_ok_iff {url : Str} :
    (∃ bs, String.new url = .ok bs) ↔ ∃ bs, Utf8.encode url = some bs ∧ bs.length < 2 ^ 24 := by
  unfold String.new
  cases Utf8.encode url with
  | none => simp
  | some bs =>
    by_cases hlen : bs.length < 2 ^ 24
    · obtain ⟨coded, hcoded, -⟩ := Bytes.new_reads hlen
      exact iff_of_true ⟨coded, hcoded⟩ ⟨bs, rfl, hlen⟩
    · simp only [Bytes.new_of_le (not_lt.mp hlen)]
      exact iff_of_false nofun fun ⟨bs', hbs', hlen'⟩ => hlen (Option.some.inj hbs' ▸ hlen')

/-- A string is read back. -/
theorem new_reads {url : Str} {bs : Bytes} (h : String.new url = .ok bs) :
    Reads (fun b => .ok (String.read b) : Reader Exc Str) bs url := by
  obtain ⟨utf8, hutf8, hlen⟩ := new_ok_iff.mp ⟨bs, h⟩
  obtain ⟨coded, hcoded, hreads⟩ := Bytes.new_reads hlen
  have hsame : String.new url = .ok coded := by
    rw [String.new, hutf8]
    exact hcoded
  obtain rfl := Except.ok.inj (h.symm.trans hsame)
  have hmap := Reads.map hreads Utf8.decodeReplace
  rwa [Utf8.decodeReplace_encode hutf8] at hmap

section Serialise

variable {f : FileId} {url : Str}

/-- The parts of the encoding, where there is a url. -/
theorem serialise_web_iff (hurl : f.url = some url) (hne : url ≠ []) {bs : Bytes} :
    f.serialise f.major f.minor = .ok bs ↔
      ∃ head u reference media body version,
        pack [(4, some (webFlagged f.fileType (f.fileReference ≠ []))), (4, some f.dcId)] =
          .ok head ∧
        String.new url = .ok u ∧
        (if f.fileReference ≠ [] then Bytes.new f.fileReference else .ok []) = .ok reference ∧
        pack [(8, f.mediaId), (8, f.accessHash)] = .ok media ∧
        (if f.fileType.isPhoto then f.packPhoto f.major f.minor else .ok []) = .ok body ∧
        pack [(1, some f.minor), (1, some f.major)] = .ok version ∧
        head ++ u ++ reference ++ media ++ body ++ version = bs := by
  have hflagged : webFlagged f.fileType (f.fileReference ≠ []) =
      if f.fileReference ≠ [] then
        setFlag fileReferenceBit (setFlag webLocationBit f.fileType.toInt)
      else setFlag webLocationBit f.fileType.toInt := by
    simp only [webFlagged, decide_eq_true_eq]
  have hdocument := (webFlagged_spec f.fileType (f.fileReference ≠ [])).2.2.1
  rw [hflagged] at hdocument ⊢
  simp only [serialise, hurl, Option.any_some, ne_eq, hne, not_false_eq_true, decide_true,
    if_true, Option.getD_some, ite_bind, bind_eq_ok, hdocument]
  constructor
  · rintro ⟨head, hhead, u, hu, reference, hreference, media, hmedia, body, hbody, version,
      hversion, hbs⟩
    exact ⟨head, u, reference, media, body, version, hhead, hu, hreference, hmedia,
      by simpa using hbody, hversion, Except.ok.inj hbs⟩
  · rintro ⟨head, u, reference, media, body, version, hhead, hu, hreference, hmedia, hbody,
      hversion, rfl⟩
    exact ⟨head, hhead, u, hu, reference, hreference, media, hmedia, body, by simpa using hbody,
      version, hversion, rfl⟩

theorem reference_ok_iff {reference : Bytes} :
    (∃ bs, (if reference ≠ [] then Bytes.new reference else .ok []) = .ok bs) ↔
      reference.length < 2 ^ 24 := by
  constructor
  · rintro ⟨bs, hbs⟩
    by_contra hlen
    have hne : reference ≠ [] := List.ne_nil_of_length_pos (by omega)
    rw [if_pos hne, Bytes.new_of_le (not_lt.mp hlen)] at hbs
    exact nomatch hbs
  · intro hlen
    obtain ⟨bs, hbs, -⟩ := reference_reads hlen
    exact ⟨bs, hbs⟩

/-- The url is written and the numbers are packed where they fit. -/
theorem exists_serialise_iff (hurl : f.url = some url) (hne : url ≠ []) :
    (∃ bs, f.serialise f.major f.minor = .ok bs) ↔
      Fits 4 f.dcId ∧ (Fits 1 f.minor ∧ Fits 1 f.major) ∧
      (∃ bs, Utf8.encode url = some bs ∧ bs.length < 2 ^ 24) ∧ f.fileReference.length < 2 ^ 24 ∧
      Holds 8 f.mediaId ∧ Holds 8 f.accessHash ∧
      (f.fileType.isPhoto = true → ∃ bs, f.packPhoto f.major f.minor = .ok bs) := by
  have hpair {w w' : ℕ} {value value' : Option ℤ} :
      (∃ bs, pack [(w, value), (w', value')] = .ok bs) ↔ Holds w value ∧ Holds w' value' := by
    rw [← pack_singleton_ok_iff, ← pack_singleton_ok_iff]
    constructor
    · rintro ⟨bs, hbs⟩
      obtain ⟨one, other, hone, hother, -⟩ := pack_cons_eq_ok.mp hbs
      exact ⟨⟨one, hone⟩, other, hother⟩
    · rintro ⟨⟨one, hone⟩, other, hother⟩
      exact ⟨one ++ other, pack_cons_eq_ok.mpr ⟨one, other, hone, hother, rfl⟩⟩
  have hsome {w : ℕ} {n : ℤ} : Holds w (some n) ↔ Fits w n := by simp [Holds]
  have hbody :
      (∃ bs, (if f.fileType.isPhoto then f.packPhoto f.major f.minor else .ok []) = .ok bs) ↔
      (f.fileType.isPhoto = true → ∃ bs, f.packPhoto f.major f.minor = .ok bs) := by
    by_cases hphoto : f.fileType.isPhoto = true
    · simp [hphoto]
    · simp [hphoto]
  have hflag := (webFlagged_spec f.fileType (f.fileReference ≠ [])).1
  rw [← new_ok_iff, ← hbody, ← reference_ok_iff]
  simp only [serialise_web_iff hurl hne]
  constructor
  · rintro ⟨bs, head, u, reference, media, body, version, hhead, hu, hreference, hmedia, hbody,
      hversion, -⟩
    obtain ⟨-, hdcId⟩ := hpair.mp ⟨head, hhead⟩
    obtain ⟨hmediaId, haccessHash⟩ := hpair.mp ⟨media, hmedia⟩
    obtain ⟨hminor, hmajor⟩ := hpair.mp ⟨version, hversion⟩
    exact ⟨hsome.mp hdcId, ⟨hsome.mp hminor, hsome.mp hmajor⟩, ⟨u, hu⟩, ⟨reference, hreference⟩,
      hmediaId, haccessHash, body, hbody⟩
  · rintro ⟨hdcId, ⟨hminor, hmajor⟩, ⟨u, hu⟩, ⟨reference, hreference⟩, hmediaId, haccessHash, body,
      hbody⟩
    obtain ⟨head, hhead⟩ := hpair.mpr ⟨hsome.mpr hflag, hsome.mpr hdcId⟩
    obtain ⟨media, hmedia⟩ := hpair.mpr ⟨hmediaId, haccessHash⟩
    obtain ⟨version, hversion⟩ := hpair.mpr ⟨hsome.mpr hminor, hsome.mpr hmajor⟩
    exact ⟨_, head, u, reference, media, body, version, hhead, hu, hreference, hmedia, hbody,
      hversion, rfl⟩

/-- What is read of the bytes: the url, and the eight bytes behind it. -/
theorem serialise_web_reads (hurl : f.url = some url) (hne : url ≠ []) {bs : Bytes}
    (h : f.serialise f.major f.minor = .ok bs) (text : List Char) :
    ∃ start post x y reference media, bs = start ++ post ++ [x, y] ∧
      (if f.fileReference ≠ [] then Bytes.new f.fileReference else .ok []) = .ok reference ∧
      pack [(8, f.mediaId)] = .ok media ∧
      ∀ major minor : ℤ, Reads (decodeBuffer text major minor) start
        { major
          minor
          fileType := f.fileType
          dcId := f.dcId
          url := some url
          accessHash := some (ofSignedLE ((reference ++ media).take 8)) } := by
  obtain ⟨head, u, reference, media, body, version, hhead, hu, hreference, hmedia, hbody, hversion,
    rfl⟩ := (serialise_web_iff hurl hne).mp h
  obtain ⟨mediaId, accessHash, hmediaId, haccessHash, rfl⟩ := pack_cons_eq_ok.mp hmedia
  obtain ⟨minor, major, hminor, hmajor, rfl⟩ := pack_cons_eq_ok.mp hversion
  obtain ⟨x, rfl⟩ := List.length_eq_one_iff.mp (length_of_pack_singleton hminor)
  obtain ⟨y, rfl⟩ := List.length_eq_one_iff.mp (length_of_pack_singleton hmajor)
  obtain ⟨hfits, hweb, hofInt⟩ : Fits 4 (webFlagged f.fileType (f.fileReference ≠ [])) ∧
      hasFlag webLocationBit (webFlagged f.fileType (f.fileReference ≠ [])) = true ∧
      FileType.ofInt? (clearFlag fileReferenceBit (clearFlag webLocationBit
        (webFlagged f.fileType (f.fileReference ≠ [])))) = some f.fileType := by
    obtain ⟨hfits, hweb, -, hofInt⟩ := webFlagged_spec f.fileType (f.fileReference ≠ [])
    exact ⟨hfits, hweb, hofInt⟩
  have hdcId : Fits 4 f.dcId := ((exists_serialise_iff hurl hne).mp ⟨_, h⟩).1
  have hheadReads : Reads (unpack [4, 4]) head
      (webFlagged f.fileType (f.fileReference ≠ []), f.dcId) := by
    obtain ⟨head', hhead', hreads⟩ := pack_reads (.cons hfits (.single hdcId))
    rwa [Except.ok.inj (hhead.symm.trans hhead')]
  have hlen : 8 ≤ (reference ++ mediaId).length := by
    rw [List.length_append, length_of_pack_singleton hmediaId]
    omega
  have hhash : Reads (unpack [8]) ((reference ++ mediaId).take 8)
      (ofSignedLE ((reference ++ mediaId).take 8)) := by
    apply unpack_reads
    rw [Struct.unpack, if_pos (by simpa using hlen)]
    rfl
  refine ⟨head ++ (u ++ (reference ++ mediaId).take 8),
    (reference ++ mediaId).drop 8 ++ accessHash ++ body, x, y, reference, mediaId, ?_, hreference,
    hmediaId, fun major minor => ?_⟩
  · have hsplit := List.take_append_drop 8 (reference ++ mediaId)
    simp only [List.append_assoc, List.singleton_append] at hsplit ⊢
    rw [← List.append_assoc (List.take 8 _), hsplit, List.append_assoc]
  · refine hheadReads.bind ?_
    simp only [hofInt, hweb, if_true]
    exact (new_reads hu).bind (hhash.bind_pure rfl)

/-- The file id that is made of the text of the bytes. -/
theorem decode_web (hurl : f.url = some url) (hne : url ≠ []) {coded : Bytes}
    (h : f.serialise f.major f.minor = .ok (rleDecode coded)) :
    ∃ g reference media, decode (b64Encode coded) = .ok g ∧
      (if f.fileReference ≠ [] then Bytes.new f.fileReference else .ok []) = .ok reference ∧
      pack [(8, f.mediaId)] = .ok media ∧ g.url = some url ∧
      g.accessHash = some (ofSignedLE ((reference ++ media).take 8)) := by
  obtain ⟨start, post, x, y, reference, media, hbs, hreference, hmedia, hreads⟩ :=
    serialise_web_reads hurl hne h (b64Encode coded)
  have hlast : (rleDecode coded).getLast? = some y := by simp [hbs]
  have hprev : (rleDecode coded).dropLast.getLast? = some x := by
    rw [hbs, List.dropLast_append_of_ne_nil (List.cons_ne_nil _ _)]
    simp
  have hlong : sliceTo (start ++ post ++ [x, y]) (-2) = start ++ post :=
    sliceTo_append_neg _ _ (List.cons_ne_nil _ _)
  have hold : sliceTo (start ++ post ++ [x, y]) (-1) = start ++ (post ++ [x]) := by
    have h := sliceTo_append_neg (start ++ (post ++ [x])) [y] (List.cons_ne_nil _ _)
    simpa using h
  rw [decode_b64Encode hlast hprev, hbs, hold, hlong]
  by_cases hversion : y.toNat < 4
  · rw [if_pos hversion]
    exact ⟨_, reference, media,
      congrArg (Except.map Prod.fst) ((hreads _ _).run_start (post ++ [x])), hreference, hmedia,
      rfl, rfl⟩
  · rw [if_neg hversion]
    exact ⟨_, reference, media, congrArg (Except.map Prod.fst) ((hreads _ _).run_start post),
      hreference, hmedia, rfl, rfl⟩

theorem encodable_of_webRoundTrip (hurl : f.url = some url) (hne : url ≠ [])
    (h : WebRoundTrip f) : Encodable f url ∧ AccessHashFollows f := by
  obtain ⟨text, g, hencode, hdecode, -, hhash⟩ := h
  obtain ⟨bs, hserialise, hmatch⟩ := bind_eq_ok.mp hencode
  simp only [Option.getD_none] at hserialise
  cases hrle : rleEncode bs with
  | none =>
    rw [hrle] at hmatch
    exact nomatch hmatch
  | some coded =>
    rw [hrle] at hmatch
    obtain rfl := Except.ok.inj hmatch
    have hruns : ShortZeroRuns bs :=
      shortZeroRuns_of_fits (n := 0) (Option.ite_none_right_eq_some.mp hrle).1
    obtain rfl : rleDecode coded = bs := by
      have hback := rleDecode_rleEncode hruns
      rw [hrle] at hback
      exact Option.some.inj hback
    obtain ⟨hdcId, hversion, hnew, hreference, hmediaId, haccessHash, hphoto⟩ :=
      (exists_serialise_iff hurl hne).mp ⟨_, hserialise⟩
    refine ⟨⟨hdcId, hversion, hnew, hreference, hmediaId, haccessHash, hphoto, ?_⟩, ?_⟩
    · intro bs' hbs'
      exact Except.ok.inj (hserialise.symm.trans hbs') ▸ hruns
    · obtain ⟨g', reference, media, hdecode', hreference, hmedia, -, hhash'⟩ :=
        decode_web hurl hne hserialise
      obtain rfl := Except.ok.inj (hdecode.symm.trans hdecode')
      exact ⟨reference, media, hreference, hmedia, hhash.symm.trans hhash'⟩

theorem Encodable.webRoundTrip (h : Encodable f url) (hurl : f.url = some url) (hne : url ≠ [])
    (hfollows : AccessHashFollows f) : WebRoundTrip f := by
  obtain ⟨reference, media, hreference, hmedia, hhash⟩ := hfollows
  obtain ⟨bs, hserialise⟩ := (exists_serialise_iff hurl hne).mpr
    ⟨h.dcId, h.version, h.url, h.fileReference, h.mediaId, h.accessHash, h.photo⟩
  obtain ⟨coded, hrle, rfl⟩ := Option.map_eq_some_iff.mp
    (rleDecode_rleEncode (h.runs bs hserialise))
  obtain ⟨g, reference', media', hdecode, hreference', hmedia', hurl', hhash'⟩ :=
    decode_web hurl hne hserialise
  obtain rfl := Except.ok.inj (hreference.symm.trans hreference')
  obtain rfl := Except.ok.inj (hmedia.symm.trans hmedia')
  exact ⟨b64Encode coded, g, encode_of_serialise hserialise hrle, hdecode,
    hurl'.trans hurl.symm, hhash'.trans hhash.symm⟩

/-- The url and the access hash come back exactly where the eight bytes behind the url are those of
the access hash. -/
theorem webRoundTrip_iff (hurl : f.url = some url) (hne : url ≠ []) :
    WebRoundTrip f ↔ Encodable f url ∧ AccessHashFollows f := by
  constructor
  · exact encodable_of_webRoundTrip hurl hne
  · rintro ⟨h, hfollows⟩
    exact h.webRoundTrip hurl hne hfollows

/-- Without a file reference the media id has to be the access hash. -/
theorem accessHashFollows_iff (href : f.fileReference = []) (h : Holds 8 f.mediaId) :
    AccessHashFollows f ↔ f.mediaId = f.accessHash := by
  obtain ⟨n, hn, hfits⟩ := h
  obtain ⟨one, hone, hlen, hvalue⟩ := Struct.exists_packSigned hfits
  have hpack : pack [(8, f.mediaId)] = .ok one := pack_singleton_eq_ok.mpr ⟨n, hn, hone⟩
  have hread : ofSignedLE (([] ++ one).take 8) = n := by
    rw [List.nil_append, List.take_of_length_le hlen.le, hvalue]
  simp only [AccessHashFollows, href, ne_eq, not_true_eq_false, if_false, Except.ok.injEq, hpack]
  constructor
  · rintro ⟨_, _, rfl, rfl, hhash⟩
    rw [hhash, hn, hread]
  · intro hsame
    exact ⟨[], one, rfl, rfl, by rw [← hsame, hn, hread]⟩

end Serialise

/-- Of a document with the url `a`. -/
def webDocument (mediaId accessHash : ℤ) : FileId where
  fileType := .document
  dcId := 2
  url := some [97]
  mediaId := some mediaId
  accessHash := some accessHash

theorem webDocument_encodable {mediaId accessHash : ℤ} (hmedia : Fits 8 mediaId)
    (hhash : Fits 8 accessHash)
    (hlen : ((webDocument mediaId accessHash).serialise 4 30).toOption.all
      (·.length < 256) = true) :
    Encodable (webDocument mediaId accessHash) [97] where
  dcId := (by constructor <;> decide : Fits 4 2)
  version := (by refine ⟨⟨?_, ?_⟩, ?_, ?_⟩ <;> decide : Fits 1 30 ∧ Fits 1 4)
  url := ⟨[97], rfl, by decide⟩
  fileReference := (by decide : ([] : Bytes).length < 2 ^ 24)
  mediaId := ⟨_, rfl, hmedia⟩
  accessHash := ⟨_, rfl, hhash⟩
  photo h := nomatch h
  runs bs h := by
    have hserialise : (webDocument mediaId accessHash).serialise 4 30 = .ok bs := h
    refine .of_length_lt ?_
    simpa [hserialise, Except.toOption] using hlen

theorem webDocument_round_trip : WebRoundTrip (webDocument 5 5) :=
  (@webRoundTrip_iff _ [97] rfl (by decide)).mpr
    ⟨webDocument_encodable (by constructor <;> decide) (by constructor <;> decide) (by decide),
      (accessHashFollows_iff rfl ⟨5, rfl, by constructor <;> decide⟩).mpr rfl⟩

/-- With the media id 1 and the access hash 2 the access hash 1 comes back. -/
theorem webDocument_hash_lost : ¬∀ (f : FileId) (url : Str), f.url = some url → url ≠ [] →
    Encodable f url → WebRoundTrip f := by
  intro h
  have htrip := h (webDocument 1 2) [97] rfl (by decide)
    (webDocument_encodable (by constructor <;> decide) (by constructor <;> decide) (by decide))
  have hfollows := (@encodable_of_webRoundTrip _ [97] rfl (by decide) htrip).2
  have hsame := (accessHashFollows_iff rfl ⟨1, rfl, by constructor <;> decide⟩).mp hfollows
  exact absurd hsame (by decide)

end AllInOneBackup.Kurigram.FileIds.FileId
