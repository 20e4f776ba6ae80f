import AllInOneBackup.Data.Struct
import AllInOneBackup.Kurigram.FileIds.Text

/-! Ids of inline messages and sessions as texts: packed numbers under Base64 without padding. -/

namespace AllInOneBackup.Kurigram

open Bytes Base64 FileIds

/-! ### Base64 without padding -/

/-- `base64.urlsafe_b64encode(packed).decode().rstrip("=")`. -/
def textOf (packed : Bytes) : List Char :=
  ((urlsafeB64encode packed).reverse.dropWhile (· = '=')).reverse

theorem textOf_eq (packed : Bytes) : textOf packed = digits packed := by
  have hforward : ∀ c ∈ digits packed, c ≠ '=' := forall_mem_digits digit_ne_pad packed
  have hdigits : ∀ c ∈ (digits packed).reverse, c ≠ '=' := fun c hc =>
    hforward c (List.mem_reverse.mp hc)
  have hpad : ((List.replicate (padding packed.length) '=').dropWhile
      fun c => decide (c = '=')) = [] := by simp
  rw [textOf, urlsafeB64encode, List.reverse_append, List.reverse_replicate, List.dropWhile_append,
    hpad, List.isEmpty_nil, if_pos rfl, dropWhile_pad hdigits, List.reverse_reverse]

theorem b64Decode_textOf (packed : Bytes) : b64Decode (textOf packed) = .ok packed := by
  rw [textOf_eq, ← b64Encode_eq]
  exact b64Decode_b64Encode packed

theorem length_textOf (packed : Bytes) : (textOf packed).length = (4 * packed.length + 2) / 3 := by
  rw [textOf_eq]
  fun_induction digits packed with
  | case1 a b c s ih =>
    simp only [List.length_cons, ih]
    omega
  | case2 a b => simp only [List.length_cons, List.length_nil]
  | case3 a => simp only [List.length_cons, List.length_nil]
  | case4 => rfl

/-! ### Inline messages -/

/-- `InputBotInlineMessageID` and `InputBotInlineMessageID64`. -/
inductive InlineMessageId
  | id32 (dcId id accessHash : ℤ)
  | id64 (dcId ownerId id accessHash : ℤ)
  deriving DecidableEq

namespace InlineMessageId

/-- The numbers as they are packed, each with its width. -/
def fields : InlineMessageId → List (ℕ × Option ℤ)
  | id32 dcId id accessHash => [(4, some dcId), (8, some id), (8, some accessHash)]
  | id64 dcId ownerId id accessHash =>
    [(4, some dcId), (8, some ownerId), (4, some id), (8, some accessHash)]

/-- `pack_inline_message_id`; `none` where a number does not fit. -/
def pack (m : InlineMessageId) : Option (List Char) := (Struct.pack m.fields).map textOf

/-- `unpack_inline_message_id`. -/
def unpack (inlineMessageId : List Char) : Except String InlineMessageId :=
  match b64Decode inlineMessageId with
  | .error e => .error e
  | .ok decoded =>
    if decoded.length = 20 then
      match Struct.unpack [4, 8, 8] decoded with
      | some (dcId, id, accessHash) => .ok (id32 dcId id accessHash)
      | none => .error "unpack requires a buffer of 20 bytes"
    else
      match Struct.unpack [4, 8, 4, 8] decoded with
      | some (dcId, ownerId, id, accessHash) => .ok (id64 dcId ownerId id accessHash)
      | none => .error "unpack requires a buffer of 24 bytes"

/-- Every number fits into its width. -/
def Fits (m : InlineMessageId) : Prop :=
  ∀ field ∈ m.fields, ∃ n, field.2 = some n ∧ Struct.Fits field.1 n

theorem Fits.field {m : InlineMessageId} {w : ℕ} {n : ℤ} (hfits : m.Fits)
    (h : (w, some n) ∈ m.fields) : Struct.Fits w n := by
  obtain ⟨n', hn, hfield⟩ := hfits _ h
  rw [Option.some.inj hn]
  exact hfield

theorem fits_of_pack {numbers : List (ℕ × Option ℤ)} {bs : Bytes}
    (h : Struct.pack numbers = some bs) :
    ∀ field ∈ numbers, ∃ n, field.2 = some n ∧ Struct.Fits field.1 n := by
  induction numbers generalizing bs with
  | nil => exact fun field hfield => absurd hfield List.not_mem_nil
  | cons number numbers ih =>
    obtain ⟨w, value⟩ := number
    obtain ⟨n, hn, h⟩ := Option.bind_eq_some_iff.mp h
    obtain ⟨first, hfirst, h⟩ := Option.bind_eq_some_iff.mp h
    obtain ⟨rest, hrest, -⟩ := Option.bind_eq_some_iff.mp h
    intro field hfield
    rcases List.mem_cons.mp hfield with rfl | hmem
    · refine ⟨n, hn, ?_⟩
      unfold packSigned at hfirst
      split_ifs at hfirst with hfits
      exact hfits
    · exact ih hrest field hmem

/-- An id is packed just when its numbers fit, and then the text is unpacked to it. -/
theorem unpack_pack (m : InlineMessageId) :
    (m.pack.isSome = true ↔ m.Fits) ∧ ∀ text, m.pack = some text → unpack text = .ok m := by
  have hpacks : m.Fits → ∃ bs, Struct.pack m.fields = some bs ∧ unpack (textOf bs) = .ok m := by
    intro hfits
    cases m with
    | id32 dcId id accessHash =>
      have hdc := hfits.field (show (4, some dcId) ∈ _ from by simp [fields])
      have hid := hfits.field (show (8, some id) ∈ _ from by simp [fields])
      have hhash := hfits.field (show (8, some accessHash) ∈ _ from by simp [fields])
      obtain ⟨bs, hpack, hunpack⟩ := Struct.Packs.cons hdc (.cons hid (.single hhash))
      have hlength : bs.length = 20 := (Option.ite_none_right_eq_some.mp hunpack).1
      refine ⟨bs, hpack, ?_⟩
      rw [unpack, b64Decode_textOf]
      dsimp only
      rw [if_pos hlength, hunpack]
    | id64 dcId ownerId id accessHash =>
      have hdc := hfits.field (show (4, some dcId) ∈ _ from by simp [fields])
      have howner := hfits.field (show (8, some ownerId) ∈ _ from by simp [fields])
      have hid := hfits.field (show (4, some id) ∈ _ from by simp [fields])
      have hhash := hfits.field (show (8, some accessHash) ∈ _ from by simp [fields])
      obtain ⟨bs, hpack, hunpack⟩ :=
        Struct.Packs.cons hdc (.cons howner (.cons hid (.single hhash)))
      have hlength : bs.length = 24 := (Option.ite_none_right_eq_some.mp hunpack).1
      refine ⟨bs, hpack, ?_⟩
      rw [unpack, b64Decode_textOf]
      dsimp only
      rw [if_neg (by omega), hunpack]
  have hfits : ∀ text, m.pack = some text → m.Fits := by
    intro text htext
    obtain ⟨bs, hbs, -⟩ := Option.map_eq_some_iff.mp htext
    exact fits_of_pack hbs
  constructor
  · constructor
    · intro hsome
      obtain ⟨text, htext⟩ := Option.isSome_iff_exists.mp hsome
      exact hfits text htext
    · intro h
      obtain ⟨bs, hbs, -⟩ := hpacks h
      rw [pack, hbs]
      rfl
  · intro text htext
    obtain ⟨bs, hbs, hunpack⟩ := hpacks (hfits text htext)
    rw [pack, hbs] at htext
    rw [← Option.some.inj htext]
    exact hunpack

end InlineMessageId

/-! ### Sessions -/

/-- The row of `sessions`; a column may be empty. -/
structure StoredSession where
  dcId : Option ℤ := some 2
  serverAddress : Option String := some "149.154.167.51"
  port : Option ℤ := some 443
  apiId : Option ℤ := none
  testMode : Option Bool := none
  authKey : Option Bytes := none
  date : ℤ := 0
  userId : Option ℤ := none
  isBot : Option Bool := none
  deriving DecidableEq

namespace StoredSession

/-- `TEST` and `PROD`. -/
def address (testMode : Bool) (dcId : ℤ) : Option String :=
  List.lookup dcId <| if testMode then
      [(1, "149.154.175.10"), (2, "149.154.167.40"), (3, "149.154.175.117")]
    else
      [(1, "149.154.175.53"), (2, "149.154.167.51"), (3, "149.154.175.100"),
        (4, "149.154.167.91"), (5, "91.108.56.130"), (203, "91.105.192.100")]

/-- `B`, `I` and `Q` of `struct`, highest byte first; `None` is not a number. -/
def packUnsignedBE (w : ℕ) (value : Option ℤ) : Option Bytes :=
  value.bind fun n => if 0 ≤ n ∧ n < 256 ^ w then some (beBytes w n.toNat) else none

/-- `?`, which takes the truth value of anything. -/
def packBool (value : Option Bool) : Bytes := if value = some true then [1] else [0]

/-- `256s`: longer strings are cut and shorter ones are filled up with zeros. -/
def fit256 (s : Bytes) : Bytes := s.take 256 ++ List.replicate (256 - s.length) 0

/-- `export_session_string`, in the format `>BI?256sQ?`. -/
def exportString (session : StoredSession) : Option (List Char) := do
  let dcId ← packUnsignedBE 1 session.dcId
  let apiId ← packUnsignedBE 4 session.apiId
  let authKey ← session.authKey
  let userId ← packUnsignedBE 8 session.userId
  return textOf (dcId ++ apiId ++ packBool session.testMode ++ fit256 authKey ++ userId ++
    packBool session.isBot)

/-- A number and a truth value in packed bytes. -/
def numberAt (bs : Bytes) (start w : ℕ) : ℤ := ofBE (bs.extract start (start + w))

def boolAt (bs : Bytes) (start : ℕ) : Bool := bs.extract start (start + 1) ≠ [0]

/-- The formats `>B?256sI?` and `>B?256sQ?`, which have neither `api_id` nor the right address. -/
def openOld (w : ℕ) (bs : Bytes) : Except String StoredSession :=
  if bs.length = 259 + w then
    .ok { dcId := some (numberAt bs 0 1), testMode := some (boolAt bs 1)
          authKey := some (bs.extract 2 258), userId := some (numberAt bs 258 w)
          isBot := some (boolAt bs (258 + w)) }
  else .error "unpack requires a buffer of another size"

def openNew (bs : Bytes) : Except String StoredSession :=
  if bs.length = 271 then
    let dcId := numberAt bs 0 1
    let testMode := boolAt bs 5
    match address testMode dcId with
    | some serverAddress =>
      .ok { dcId := some dcId, serverAddress := some serverAddress
            port := some (if testMode then 80 else 443)
            apiId := some (numberAt bs 1 4), testMode := some testMode
            authKey := some (bs.extract 6 262), userId := some (numberAt bs 262 8)
            isBot := some (boolAt bs 270) }
    | none => .error "KeyError"
  else .error "unpack requires a buffer of 271 bytes"

/-- The session that `open` makes of a session string. -/
def openString (sessionString : List Char) : Except String StoredSession :=
  match b64Decode sessionString with
  | .error e => .error e
  | .ok bs =>
    if sessionString.length = 351 then openOld 4 bs
    else if sessionString.length = 356 then openOld 8 bs
    else openNew bs

/-- A session as a session string keeps it. -/
def kept (session : StoredSession) (serverAddress : String) : StoredSession :=
  let testMode := session.testMode = some true
  { session with
    serverAddress := some serverAddress
    port := some (if testMode then 80 else 443)
    testMode := some testMode
    authKey := session.authKey.map fit256
    date := 0
    isBot := some (session.isBot = some true) }

theorem length_fit256 (s : Bytes) : (fit256 s).length = 256 := by
  rw [fit256, List.length_append, List.length_take, List.length_replicate]
  omega

theorem fit256_eq_self_iff {s : Bytes} : fit256 s = s ↔ s.length = 256 := by
  constructor
  · intro h
    rw [← h, length_fit256]
  · intro h
    rw [fit256, h, Nat.sub_self, List.replicate_zero, List.append_nil, ← h, List.take_length]

theorem packUnsignedBE_eq_some {w : ℕ} {value : Option ℤ} {bs : Bytes}
    (h : packUnsignedBE w value = some bs) :
    bs.length = w ∧ value = some (ofBE bs : ℤ) := by
  obtain ⟨n, rfl, hpack⟩ := Option.bind_eq_some_iff.mp h
  obtain ⟨hn, hbytes⟩ := Option.ite_none_right_eq_some.mp hpack
  obtain rfl := Option.some.inj hbytes
  have hlt : n.toNat < 256 ^ w := by
    have hcast : ((n.toNat : ℕ) : ℤ) < ((256 ^ w : ℕ) : ℤ) := by
      rw [Int.toNat_of_nonneg hn.1]
      exact_mod_cast hn.2
    exact_mod_cast hcast
  refine ⟨length_beBytes w _, ?_⟩
  rw [ofBE_beBytes hlt, Int.toNat_of_nonneg hn.1]

theorem length_packBool (value : Option Bool) : (packBool value).length = 1 := by
  unfold packBool
  split_ifs <;> rfl

theorem packBool_ne_zero (value : Option Bool) :
    decide (packBool value ≠ [0]) = decide (value = some true) := by
  unfold packBool
  split_ifs with h
  · simp [h]
  · simp [h]

/-- A part of a list that is put together. -/
theorem extract_eq {bs part : Bytes} {start w : ℕ} (pre post : Bytes)
    (h : bs = pre ++ (part ++ post))
    (hpre : pre.length = start) (hpart : part.length = w) :
    bs.extract start (start + w) = part := by
  subst hpre hpart h
  rw [List.extract_eq_take_drop, List.drop_left, Nat.add_sub_cancel_left, List.take_left]

/-- A session string gives the session back, with the address of its data centre and a key of 256
bytes; the key is the same just when it has so many. -/
theorem open_export {session : StoredSession} {text : List Char} {serverAddress : String}
    (h : session.exportString = some text)
    (hdc : session.dcId.bind (address (session.testMode = some true)) = some serverAddress) :
    openString text = .ok (session.kept serverAddress) ∧
      ((session.kept serverAddress).authKey = session.authKey ↔
        ∀ key, session.authKey = some key → key.length = 256) := by
  obtain ⟨dcId, hdcId, h⟩ := Option.bind_eq_some_iff.mp h
  obtain ⟨apiId, hapiId, h⟩ := Option.bind_eq_some_iff.mp h
  obtain ⟨authKey, hauthKey, h⟩ := Option.bind_eq_some_iff.mp h
  obtain ⟨userId, huserId, h⟩ := Option.bind_eq_some_iff.mp h
  obtain rfl := Option.some.inj h
  obtain ⟨hlen₁, hdcId⟩ := packUnsignedBE_eq_some hdcId
  obtain ⟨hlen₂, hapiId⟩ := packUnsignedBE_eq_some hapiId
  obtain ⟨hlen₃, huserId⟩ := packUnsignedBE_eq_some huserId
  have hkey := length_fit256 authKey
  have htest := length_packBool session.testMode
  have hbot := length_packBool session.isBot
  generalize hbs : dcId ++ apiId ++ packBool session.testMode ++ fit256 authKey ++ userId ++
    packBool session.isBot = bs
  have hlength : bs.length = 271 := by
    rw [← hbs]
    simp only [List.length_append, hlen₁, hlen₂, hlen₃, hkey, htest, hbot]
  have htext : (textOf bs).length = 362 := by rw [length_textOf, hlength]
  have h₁ : bs.extract 0 (0 + 1) = dcId :=
    extract_eq [] _ (by rw [← hbs]; simp only [List.append_assoc, List.nil_append]; rfl)
      rfl hlen₁
  have h₂ : bs.extract 1 (1 + 4) = apiId :=
    extract_eq dcId _ (by rw [← hbs]; simp only [List.append_assoc]; rfl) hlen₁ hlen₂
  have h₃ : bs.extract 5 (5 + 1) = packBool session.testMode :=
    extract_eq (dcId ++ apiId) _ (by rw [← hbs]; simp only [List.append_assoc]; rfl)
      (by rw [List.length_append, hlen₁, hlen₂]) htest
  have h₄ : bs.extract 6 (6 + 256) = fit256 authKey :=
    extract_eq (dcId ++ apiId ++ packBool session.testMode) _
      (by rw [← hbs]; simp only [List.append_assoc]; rfl)
      (by simp only [List.length_append, hlen₁, hlen₂, htest]) hkey
  have h₅ : bs.extract 262 (262 + 8) = userId :=
    extract_eq (dcId ++ apiId ++ packBool session.testMode ++ fit256 authKey) _
      (by rw [← hbs]; simp only [List.append_assoc]; rfl)
      (by simp only [List.length_append, hlen₁, hlen₂, htest, hkey]) hlen₃
  have h₆ : bs.extract 270 (270 + 1) = packBool session.isBot :=
    extract_eq (dcId ++ apiId ++ packBool session.testMode ++ fit256 authKey ++ userId) []
      (by rw [← hbs]; simp only [List.append_nil])
      (by simp only [List.length_append, hlen₁, hlen₂, hlen₃, htest, hkey]) hbot
  have htestMode : boolAt bs 5 = decide (session.testMode = some true) := by
    rw [boolAt, h₃]
    exact packBool_ne_zero _
  have hisBot : boolAt bs 270 = decide (session.isBot = some true) := by
    rw [boolAt, h₆]
    exact packBool_ne_zero _
  have haddress : address (boolAt bs 5) (numberAt bs 0 1) = some serverAddress := by
    rw [htestMode, numberAt, h₁]
    rw [hdcId] at hdc
    exact hdc
  constructor
  · rw [openString, b64Decode_textOf]
    dsimp only
    rw [if_neg (by omega), if_neg (by omega), openNew, if_pos hlength]
    dsimp only
    rw [haddress]
    dsimp only
    rw [numberAt, h₁, numberAt, h₂, h₄, numberAt, h₅, htestMode, hisBot]
    simp only [kept, hdcId, hapiId, huserId, hauthKey, Option.map_some, decide_eq_true_eq]
  · rw [kept]
    simp only [hauthKey, Option.map_some, Option.some.injEq, fit256_eq_self_iff, forall_eq']

/-- A session of the second data centre. -/
def sample : StoredSession :=
  { apiId := some 6, testMode := some false, authKey := some (List.replicate 256 1), userId := some 7,
    isBot := some true }

theorem open_export_sample : ∃ text, sample.exportString = some text ∧
    openString text = .ok (sample.kept "149.154.167.51") := by
  have hsome : sample.exportString.isSome = true := by rfl
  obtain ⟨text, htext⟩ := Option.isSome_iff_exists.mp hsome
  exact ⟨text, htext, (open_export htext rfl).1⟩

end StoredSession

end AllInOneBackup.Kurigram
