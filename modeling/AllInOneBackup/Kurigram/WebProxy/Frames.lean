import AllInOneBackup.Data.Block
import AllInOneBackup.Data.Framing
import AllInOneBackup.Kurigram.WebProxy.Carrier

/-! The frames of a WEB proxy on the wire. A parser sees one frame at a time behind what it has
consumed: the serialisations of frames in range are read back from every cut, and a message is
accepted where it is one or more of them. -/

namespace AllInOneBackup.Kurigram.WebProxyCarrier

open Bytes

/-! ### Model -/

def maxStreamId : ℕ := 0x00FFFFFF

def FrameType.value : FrameType → UInt8
  | .open => 0x01
  | .data => 0x02
  | .close => 0x03
  | .window => 0x04
  | .ping => 0x05
  | .pong => 0x06
  | .hello => 0x10
  | .welcome => 0x11
  | .authChallenge => 0x12
  | .authResponse => 0x13
  | .bye => 0x1F

def FrameType.all : List FrameType :=
  [.open, .data, .close, .window, .ping, .pong, .hello, .welcome, .authChallenge, .authResponse,
    .bye]

/-- The type of a byte in `_KNOWN_FRAME_TYPES`. -/
def FrameType.ofByte (b : UInt8) : Option FrameType := all.find? fun type => type.value = b

/-- The `ValueError`s of `serialize_frame`. -/
inductive SerializeError
  | streamIdOutOfRange (streamId : ℤ)
  | payloadTooLarge (size : ℕ)
  deriving DecidableEq

def SerializeError.text : SerializeError → String
  | .streamIdOutOfRange streamId => "frame: stream id " ++ toString streamId ++ " out of range"
  | .payloadTooLarge size => "frame: payload too large (" ++ toString size ++ " bytes)"

/-- `FrameParseError`. -/
inductive FrameParseError
  | unknownType (typeByte : UInt8)
  | payloadTooLarge (size : ℕ)
  | emptyMessage
  | trailingPartialFrame
  deriving DecidableEq

def FrameParseError.text : FrameParseError → String
  | .unknownType b =>
    "frame: unknown type 0x" ++
      String.ofList [(b.toNat / 16).digitChar, (b.toNat % 16).digitChar]
  | .payloadTooLarge size => "frame: payload too large (" ++ toString size ++ " bytes)"
  | .emptyMessage => "frame: empty message"
  | .trailingPartialFrame => "frame: trailing partial frame"

/-- The four bytes of a type and a stream id. -/
def typeAndStream (type : FrameType) (streamId : ℕ) : Bytes :=
  [type.value &&& 0xFF, UInt8.ofNat ((streamId >>> 16) &&& 0xFF),
    UInt8.ofNat ((streamId >>> 8) &&& 0xFF), UInt8.ofNat (streamId &&& 0xFF)]

def serializeFrame (type : FrameType) (streamId : ℤ) (payload : Bytes) :
    Except SerializeError Bytes :=
  if ¬(0 ≤ streamId ∧ streamId ≤ maxStreamId) then .error (.streamIdOutOfRange streamId)
  else if payload.length > frameMaxPayload then .error (.payloadTooLarge payload.length)
  else .ok (typeAndStream type streamId.toNat ++ beBytes 4 payload.length ++ payload)

/-- The body of the loop of `parse_frames`, at what is left of the wire: a frame and what follows
it, or `none` where the loop ends. -/
def nextFrame : Bytes → Except FrameParseError (Option (Frame × Bytes))
  | typeByte :: s₁ :: s₂ :: s₃ :: n₁ :: n₂ :: n₃ :: n₄ :: wire =>
    match FrameType.ofByte typeByte with
    | none => .error (.unknownType typeByte)
    | some type =>
      let streamId := s₁.toNat <<< 16 ||| s₂.toNat <<< 8 ||| s₃.toNat
      let size := ofBE [n₁, n₂, n₃, n₄]
      if hsize : size > frameMaxPayload then .error (.payloadTooLarge size)
      else if wire.length < size then .ok none
      else
        have capped : (wire.take size).length ≤ frameMaxPayload :=
          (List.length_take_le _ _).trans (Nat.le_of_not_lt hsize)
        .ok (some (⟨type, streamId, wire.take size, capped⟩, wire.drop size))
  | _ => .ok none

theorem nextFrame_cases {wire : Bytes} {f : Frame} {rest : Bytes}
    (h : nextFrame wire = .ok (some (f, rest))) :
    ∃ typeByte s₁ s₂ s₃ n₁ n₂ n₃ n₄, FrameType.ofByte typeByte = some f.type ∧
      f.streamId = s₁.toNat <<< 16 ||| s₂.toNat <<< 8 ||| s₃.toNat ∧
      f.payload.length = ofBE [n₁, n₂, n₃, n₄] ∧
      wire = typeByte :: s₁ :: s₂ :: s₃ :: n₁ :: n₂ :: n₃ :: n₄ :: (f.payload ++ rest) := by
  unfold nextFrame at h
  split at h
  case h_1 typeByte s₁ s₂ s₃ n₁ n₂ n₃ n₄ wire =>
    split at h
    case h_1 => cases h
    case h_2 type htype =>
      dsimp only at h
      split_ifs at h with hsize hshort
      · cases h
      · obtain ⟨rfl, rfl⟩ := Prod.mk.inj (Option.some.inj (Except.ok.inj h))
        refine ⟨typeByte, s₁, s₂, s₃, n₁, n₂, n₃, n₄, htype, rfl, ?_, ?_⟩
        · exact List.length_take_of_le (Nat.le_of_not_lt hshort)
        · rw [List.take_append_drop]
  case h_2 => cases h

/-- The loop of `parse_frames`. -/
def frames : Framing Frame UInt8 FrameParseError where
  next := nextFrame
  shorter := by
    intro w f rest h
    obtain ⟨_, _, _, _, _, _, _, _, -, -, -, rfl⟩ := nextFrame_cases h
    simp only [List.length_cons, List.length_append]
    omega

structure ParsedFrames where
  frames : List Frame
  consumed : ℕ

def parseFrames (wire : Bytes) : Except FrameParseError ParsedFrames :=
  (frames.parse wire).map fun (parsed, left) => ⟨parsed, wire.length - left.length⟩

def parseFrameMessage (body : Bytes) : Except FrameParseError (List Frame) :=
  if body = [] then .error .emptyMessage
  else do
    let parsed ← parseFrames body
    if parsed.consumed ≠ body.length ∨ parsed.frames = [] then .error .trailingPartialFrame
    else return parsed.frames

/-- `serialize_frame` for one frame after the other, joined. -/
def serializeFrames : List Frame → Except SerializeError Bytes
  | [] => .ok []
  | f :: fs => do
    let wire ← serializeFrame f.type f.streamId f.payload
    let rest ← serializeFrames fs
    return wire ++ rest

/-! ### One frame -/

attribute [ext] Frame

theorem ofByte_value (type : FrameType) : FrameType.ofByte type.value = some type := by
  cases type <;> rfl

theorem value_of_ofByte {b : UInt8} {type : FrameType} (h : FrameType.ofByte b = some type) :
    type.value = b := by
  have hfound := List.find?_some h
  exact of_decide_eq_true hfound

theorem shiftLeft_or_shiftLeft (a b : ℕ) (hb : b < 256) :
    a <<< 16 ||| b <<< 8 = (a * 256 + b) <<< 8 := by
  have hlow : b <<< 8 < 2 ^ 16 := by
    rw [Nat.shiftLeft_eq]
    omega
  rw [← Nat.shiftLeft_add_eq_or_of_lt hlow a]
  simp only [Nat.shiftLeft_eq]
  omega

/-- Three bytes joined by shifts. -/
theorem shifts_eq (a b c : ℕ) (hb : b < 256) (hc : c < 256) :
    a <<< 16 ||| b <<< 8 ||| c = a * 65536 + b * 256 + c := by
  rw [shiftLeft_or_shiftLeft a b hb, ← Nat.shiftLeft_add_eq_or_of_lt hc (a * 256 + b),
    Nat.shiftLeft_eq]
  omega

/-- The bytes of a stream id. -/
theorem streamBytes_eq (n : ℕ) :
    (n >>> 16) &&& 0xFF = n / 65536 % 256 ∧ (n >>> 8) &&& 0xFF = n / 256 % 256 ∧
      n &&& 0xFF = n % 256 := by
  have hmask : ∀ m : ℕ, m &&& 0xFF = m % 256 := fun m => Nat.and_two_pow_sub_one_eq_mod m 8
  rw [hmask, hmask, hmask, Nat.shiftRight_eq_div_pow, Nat.shiftRight_eq_div_pow]
  exact ⟨rfl, rfl, rfl⟩

/-- A frame that `serialize_frame` takes. -/
def Frame.InRange (f : Frame) : Prop := f.streamId ≤ maxStreamId

/-- The serialisation of a frame. -/
def Frame.wire (f : Frame) : Bytes :=
  typeAndStream f.type f.streamId ++ beBytes 4 f.payload.length ++ f.payload

theorem serializeFrame_eq {f : Frame} (h : f.InRange) :
    serializeFrame f.type f.streamId f.payload = .ok f.wire := by
  have hid : 0 ≤ (f.streamId : ℤ) ∧ (f.streamId : ℤ) ≤ maxStreamId :=
    ⟨Int.natCast_nonneg _, Int.ofNat_le.mpr h⟩
  rw [serializeFrame, if_neg (not_not_intro hid), if_neg (Nat.not_lt.mpr f.capped)]
  rfl

theorem inRange_of_serializeFrame {f : Frame} {wire : Bytes}
    (h : serializeFrame f.type f.streamId f.payload = .ok wire) : f.InRange ∧ wire = f.wire := by
  by_cases hid : f.InRange
  · rw [serializeFrame_eq hid] at h
    exact ⟨hid, (Except.ok.inj h).symm⟩
  · have hout : ¬(0 ≤ (f.streamId : ℤ) ∧ (f.streamId : ℤ) ≤ maxStreamId) :=
      fun hin => hid (Int.ofNat_le.mp hin.2)
    rw [serializeFrame, if_pos hout] at h
    cases h

theorem serializeFrames_eq_ok {fs : List Frame} {wire : Bytes} :
    serializeFrames fs = .ok wire ↔ (∀ f ∈ fs, f.InRange) ∧ wire = fs.flatMap Frame.wire := by
  induction fs generalizing wire with
  | nil =>
    constructor
    · intro h
      exact ⟨List.forall_mem_nil _, (Except.ok.inj h).symm⟩
    · rintro ⟨-, rfl⟩
      rfl
  | cons f fs ih =>
    constructor
    · intro h
      cases hf : serializeFrame f.type f.streamId f.payload with
      | error e => rw [serializeFrames, hf] at h; cases h
      | ok w =>
        obtain ⟨hin, rfl⟩ := inRange_of_serializeFrame hf
        cases hfs : serializeFrames fs with
        | error e => rw [serializeFrames, hf, hfs] at h; cases h
        | ok rest =>
          rw [serializeFrames, hf, hfs] at h
          obtain ⟨hall, hrest⟩ := ih.mp hfs
          refine ⟨List.forall_mem_cons.mpr ⟨hin, hall⟩, ?_⟩
          rw [List.flatMap_cons, ← hrest]
          exact (Except.ok.inj h).symm
    · rintro ⟨hall, rfl⟩
      obtain ⟨hin, hall⟩ := List.forall_mem_cons.mp hall
      rw [serializeFrames, serializeFrame_eq hin, ih.mpr ⟨hall, rfl⟩]
      rfl

/-- The bytes of a header give back the stream id. -/
theorem streamId_typeAndStream (type : FrameType) {n : ℕ} (h : n ≤ maxStreamId) :
    ∃ s₁ s₂ s₃, typeAndStream type n = [type.value, s₁, s₂, s₃] ∧
      s₁.toNat <<< 16 ||| s₂.toNat <<< 8 ||| s₃.toNat = n := by
  obtain ⟨h₁, h₂, h₃⟩ := streamBytes_eq n
  have htype : type.value &&& 0xFF = type.value := by cases type <;> rfl
  have hbound : n ≤ 0xFFFFFF := h
  refine ⟨UInt8.ofNat (n / 65536 % 256), UInt8.ofNat (n / 256 % 256), UInt8.ofNat (n % 256), ?_,
    ?_⟩
  · rw [typeAndStream, h₁, h₂, h₃, htype]
  · simp only [UInt8.toNat_ofNat']
    rw [shifts_eq _ _ _ (by omega) (by omega)]
    omega

/-- Three bytes are the bytes of the number they give. -/
theorem typeAndStream_of_bytes (type : FrameType) (s₁ s₂ s₃ : UInt8) :
    s₁.toNat <<< 16 ||| s₂.toNat <<< 8 ||| s₃.toNat ≤ maxStreamId ∧
      typeAndStream type (s₁.toNat <<< 16 ||| s₂.toNat <<< 8 ||| s₃.toNat) =
        [type.value, s₁, s₂, s₃] := by
  have b₁ := s₁.toNat_lt
  have b₂ := s₂.toNat_lt
  have b₃ := s₃.toNat_lt
  rw [shifts_eq _ _ _ b₂ b₃]
  have htype : type.value &&& 0xFF = type.value := by cases type <;> rfl
  obtain ⟨h₁, h₂, h₃⟩ := streamBytes_eq (s₁.toNat * 65536 + s₂.toNat * 256 + s₃.toNat)
  constructor
  · rw [maxStreamId]
    omega
  · rw [typeAndStream, h₁, h₂, h₃, htype]
    have e₁ : (s₁.toNat * 65536 + s₂.toNat * 256 + s₃.toNat) / 65536 % 256 = s₁.toNat := by omega
    have e₂ : (s₁.toNat * 65536 + s₂.toNat * 256 + s₃.toNat) / 256 % 256 = s₂.toNat := by omega
    have e₃ : (s₁.toNat * 65536 + s₂.toNat * 256 + s₃.toNat) % 256 = s₃.toNat := by omega
    rw [e₁, e₂, e₃, UInt8.ofNat_toNat, UInt8.ofNat_toNat, UInt8.ofNat_toNat]

theorem exists_four {bs : Bytes} (h : bs.length = 4) :
    ∃ n₁ n₂ n₃ n₄, bs = [n₁, n₂, n₃, n₄] := by
  match bs, h with
  | [n₁, n₂, n₃, n₄], _ => exact ⟨n₁, n₂, n₃, n₄, rfl⟩

/-- The header of a frame, and the length it gives. -/
theorem exists_header {f : Frame} (h : f.InRange) :
    ∃ s₁ s₂ s₃ n₁ n₂ n₃ n₄,
      f.wire = f.type.value :: s₁ :: s₂ :: s₃ :: n₁ :: n₂ :: n₃ :: n₄ :: f.payload ∧
      s₁.toNat <<< 16 ||| s₂.toNat <<< 8 ||| s₃.toNat = f.streamId ∧
      ofBE [n₁, n₂, n₃, n₄] = f.payload.length := by
  obtain ⟨s₁, s₂, s₃, hhead, hid⟩ := streamId_typeAndStream f.type h
  obtain ⟨n₁, n₂, n₃, n₄, hsize⟩ := exists_four (length_beBytes 4 f.payload.length)
  have hfits : f.payload.length < 256 ^ 4 := f.capped.trans_lt (by decide)
  refine ⟨s₁, s₂, s₃, n₁, n₂, n₃, n₄, ?_, hid, ?_⟩
  · rw [Frame.wire, hhead, hsize]
    rfl
  · rw [← hsize, ofBE_beBytes hfits]

/-- A whole header in front of some bytes. -/
theorem nextFrame_header {type : FrameType} {s₁ s₂ s₃ n₁ n₂ n₃ n₄ : UInt8} {wire : Bytes}
    (hsize : ofBE [n₁, n₂, n₃, n₄] ≤ frameMaxPayload) (hshort : wire.length < ofBE [n₁, n₂, n₃, n₄]) :
    nextFrame (type.value :: s₁ :: s₂ :: s₃ :: n₁ :: n₂ :: n₃ :: n₄ :: wire) = .ok none := by
  rw [nextFrame, ofByte_value]
  simp only [dif_neg (Nat.not_lt.mpr hsize), if_pos hshort]

theorem nextFrame_of_length_lt {wire : Bytes} (h : wire.length < 8) : nextFrame wire = .ok none := by
  unfold nextFrame
  split
  · simp only [List.length_cons] at h
    omega
  · rfl

theorem nextFrame_wire {f : Frame} (h : f.InRange) (rest : Bytes) :
    nextFrame (f.wire ++ rest) = .ok (some (f, rest)) := by
  obtain ⟨s₁, s₂, s₃, n₁, n₂, n₃, n₄, hwire, hid, hsize⟩ := exists_header h
  have hcapped : ¬ofBE [n₁, n₂, n₃, n₄] > frameMaxPayload := by
    rw [hsize]
    exact Nat.not_lt.mpr f.capped
  have hwhole : ¬(f.payload ++ rest).length < ofBE [n₁, n₂, n₃, n₄] := by
    rw [hsize, List.length_append]
    omega
  have htake : (f.payload ++ rest).take (ofBE [n₁, n₂, n₃, n₄]) = f.payload := by
    rw [hsize, List.take_left]
  have hdrop : (f.payload ++ rest).drop (ofBE [n₁, n₂, n₃, n₄]) = rest := by
    rw [hsize, List.drop_left]
  rw [hwire]
  simp only [List.cons_append, nextFrame, ofByte_value, dif_neg hcapped, if_neg hwhole]
  exact congrArg (fun r => Except.ok (some r)) (Prod.ext (Frame.ext rfl hid htake) hdrop)

/-- Part of a frame is not an error. -/
theorem nextFrame_part {f : Frame} (h : f.InRange) {part more : Bytes} (hpart : f.wire = part ++ more)
    (hmore : more ≠ []) : nextFrame part = .ok none := by
  obtain ⟨s₁, s₂, s₃, n₁, n₂, n₃, n₄, hwire, -, hsize⟩ := exists_header h
  have hpos := List.length_pos_iff.mpr hmore
  rw [hwire] at hpart
  change [f.type.value, s₁, s₂, s₃, n₁, n₂, n₃, n₄] ++ f.payload = part ++ more at hpart
  have hcapped : ofBE [n₁, n₂, n₃, n₄] ≤ frameMaxPayload := hsize.trans_le f.capped
  obtain ⟨t, rfl, ht⟩ | ⟨t, hhead, rfl⟩ := List.append_eq_append_iff.mp hpart
  · have hlt : t.length < ofBE [n₁, n₂, n₃, n₄] := by
      rw [hsize, ht, List.length_append]
      omega
    exact nextFrame_header hcapped hlt
  · cases t with
    | nil =>
      rw [List.append_nil] at hhead
      rw [← hhead]
      exact nextFrame_header hcapped (hsize ▸ hpos)
    | cons b t =>
      apply nextFrame_of_length_lt
      have hlen := congrArg List.length hhead
      simp only [List.length_cons, List.length_append, List.length_nil] at hlen
      omega

theorem nextFrame_sound {wire : Bytes} {f : Frame} {rest : Bytes}
    (h : nextFrame wire = .ok (some (f, rest))) : f.InRange ∧ wire = f.wire ++ rest := by
  obtain ⟨typeByte, s₁, s₂, s₃, n₁, n₂, n₃, n₄, htype, hid, hsize, rfl⟩ := nextFrame_cases h
  obtain ⟨hin, hhead⟩ := typeAndStream_of_bytes f.type s₁ s₂ s₃
  rw [← hid] at hin hhead
  have hlen : beBytes 4 f.payload.length = [n₁, n₂, n₃, n₄] := by
    rw [hsize]
    exact beBytes_ofBE [n₁, n₂, n₃, n₄]
  refine ⟨hin, ?_⟩
  rw [Frame.wire, hhead, hlen, value_of_ofByte htype]
  rfl

/-- The parser reads the serialisations of the frames in range, and nothing else. -/
theorem frames_reads : frames.Reads Frame.wire Frame.InRange where
  nil := rfl
  whole _ rest h := nextFrame_wire h rest
  part _ _ _ h hpart hmore := nextFrame_part h hpart hmore
  sound _ _ _ h := nextFrame_sound h

/-! ### Streams and messages -/

theorem parseFrames_eq {wire left : Bytes} {fs : List Frame} (h : frames.parse wire = .ok (fs, left)) :
    parseFrames wire = .ok ⟨fs, wire.length - left.length⟩ := by
  rw [parseFrames, h]
  rfl

theorem parseFrameMessage_eq {body left : Bytes} {fs : List Frame} (hbody : body ≠ [])
    (h : frames.parse body = .ok (fs, left)) :
    parseFrameMessage body =
      if body.length - left.length ≠ body.length ∨ fs = [] then .error .trailingPartialFrame
      else .ok fs := by
  rw [parseFrameMessage, if_neg hbody, parseFrames_eq h]
  rfl

/-- A message is accepted where it is one or more frames in range, and they are what comes out. -/
theorem parseFrameMessage_eq_ok {body : Bytes} {fs : List Frame} :
    parseFrameMessage body = .ok fs ↔ fs ≠ [] ∧ serializeFrames fs = .ok body := by
  rw [serializeFrames_eq_ok]
  constructor
  · intro h
    have hbody : body ≠ [] := by
      rintro rfl
      cases h
    cases hparse : frames.parse body with
    | error e =>
      rw [parseFrameMessage, if_neg hbody, parseFrames, hparse] at h
      cases h
    | ok r =>
      obtain ⟨hin, hwire, -⟩ := frames_reads.of_parse hparse
      rw [parseFrameMessage_eq hbody hparse] at h
      split_ifs at h with hrest
      cases h
      obtain ⟨hall, hne⟩ := not_or.mp hrest
      have hlen := congrArg List.length hwire
      rw [List.length_append] at hlen
      have hnone : r.2 = [] := by
        apply List.length_eq_zero_iff.mp
        have hpos := List.length_pos_iff.mpr hbody
        omega
      rw [hnone, List.append_nil] at hwire
      exact ⟨hne, hin, hwire⟩
  · rintro ⟨hne, hin, rfl⟩
    have hbody : fs.flatMap Frame.wire ≠ [] := by
      obtain ⟨f, fs, rfl⟩ := List.exists_cons_of_ne_nil hne
      rw [List.flatMap_cons]
      exact fun h => absurd (List.append_eq_nil_iff.mp h).1 (List.cons_ne_nil _ _)
    rw [parseFrameMessage_eq hbody (frames_reads.parse_flatMap hin)]
    simp [hne]

/-- Frames with a stream id in range serialise, and wherever their bytes are cut, parsing the first
part returns the frames that end in it and the boundary behind them, and parsing the rest returns
the other frames. A message is accepted exactly where it is the serialisation of one or more
frames, which it returns. -/
theorem frame_codec :
    (∀ fs : List Frame, (∀ f ∈ fs, f.streamId ≤ maxStreamId) →
      ∃ wire, serializeFrames fs = .ok wire ∧ ∀ w₁ w₂, wire = w₁ ++ w₂ →
        ∃ done rest boundary, fs = done ++ rest ∧ serializeFrames done = .ok (w₁.take boundary) ∧
          boundary ≤ w₁.length ∧
          (∀ f ∈ rest.head?, w₁.length < boundary + f.wire.length) ∧
          parseFrames w₁ = .ok ⟨done, boundary⟩ ∧
          parseFrames (w₁.drop boundary ++ w₂) =
            .ok ⟨rest, (w₁.drop boundary ++ w₂).length⟩) ∧
    ∀ body fs, parseFrameMessage body = .ok fs ↔ fs ≠ [] ∧ serializeFrames fs = .ok body := by
  refine ⟨fun fs hin => ?_, fun body fs => parseFrameMessage_eq_ok⟩
  refine ⟨_, serializeFrames_eq_ok.mpr ⟨hin, rfl⟩, fun w₁ w₂ hcut => ?_⟩
  obtain ⟨done, rest, part, rfl, rfl, hnext, hparse, hparse'⟩ := frames_reads.parse_cut hin hcut
  have hdone : ∀ f ∈ done, f.InRange := fun f hf => hin f (List.mem_append_left rest hf)
  have hdrop : (done.flatMap Frame.wire ++ part).drop (done.flatMap Frame.wire).length = part :=
    List.drop_left
  refine ⟨done, rest, (done.flatMap Frame.wire).length, rfl, ?_, ?_, fun f hf => ?_, ?_, ?_⟩
  · rw [List.take_left]
    exact serializeFrames_eq_ok.mpr ⟨hdone, rfl⟩
  · rw [List.length_append]
    omega
  · have hlt := hnext f hf
    rw [List.length_append]
    omega
  · rw [parseFrames_eq hparse, List.length_append, Nat.add_sub_cancel]
  · rw [hdrop, parseFrames_eq hparse', List.length_nil, Nat.sub_zero]

/-- A greeting and what two messages bring, with nine, eleven and eight bytes on the wire. -/
def threeFrames : List Frame :=
  [⟨.hello, 0, [7], by decide⟩, ⟨.data, 5, [1, 2, 3], by decide⟩, ⟨.close, 5, [], by decide⟩]

/-- The cut is inside the second frame. -/
theorem frame_codec_threeFrames : ∃ w₁ w₂,
    w₁.length = 14 ∧ serializeFrames threeFrames = .ok (w₁ ++ w₂) ∧
      parseFrames w₁ = .ok ⟨threeFrames.take 1, 9⟩ ∧
      parseFrames (w₁.drop 9 ++ w₂) = .ok ⟨threeFrames.drop 1, 19⟩ ∧
      parseFrameMessage (w₁ ++ w₂) = .ok threeFrames := by
  obtain ⟨wire, hwire, hcut⟩ := frame_codec.1 threeFrames (by decide)
  have hlen : wire.length = 28 := by
    cases hwire
    rfl
  obtain ⟨done, rest, boundary, hfs, hdone, hle, hnext, hparse, hparse'⟩ :=
    hcut (wire.take 14) (wire.drop 14) (List.take_append_drop 14 wire).symm
  have hfirst : (wire.take 14).length = 14 := by
    rw [List.length_take, hlen]
    rfl
  have hsize : ((wire.take 14).take boundary).length = boundary := List.length_take_of_le hle
  have hbody : serializeFrames threeFrames = .ok (wire.take 14 ++ wire.drop 14) := by
    rw [List.take_append_drop, hwire]
  rw [hfirst] at hle hnext
  -- the number of frames that end in the first part
  rcases done with _ | ⟨f, _ | ⟨g, done⟩⟩
  · obtain rfl := hfs
    obtain rfl : boundary = 0 := by
      rw [← hsize, ← Except.ok.inj hdone]
      rfl
    exact absurd (hnext _ rfl) (by decide)
  · obtain ⟨rfl, rfl⟩ := List.cons.inj hfs
    obtain rfl : boundary = 9 := by
      rw [← hsize, ← Except.ok.inj hdone]
      rfl
    refine ⟨_, _, hfirst, hbody, hparse, ?_, (frame_codec.2 _ _).mpr ⟨by decide, hbody⟩⟩
    rw [hparse']
    simp [hlen, threeFrames]
  · obtain ⟨rfl, htail⟩ := List.cons.inj hfs
    obtain ⟨rfl, -⟩ := List.cons.inj htail
    have htwo := (serializeFrames_eq_ok.mp hdone).2
    have hlong := congrArg List.length htwo
    rw [hsize] at hlong
    simp [Frame.wire, typeAndStream] at hlong
    omega

end AllInOneBackup.Kurigram.WebProxyCarrier
