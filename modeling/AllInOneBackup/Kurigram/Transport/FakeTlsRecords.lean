import AllInOneBackup.Kurigram.Transport.Tcp

/-! The TLS record layer of an ee-prefixed MTProxy. One side cuts its payloads into records
behind a single change-cipher-spec, the first payload behind the prologue; the other side
serves reads out of a buffer that it fills record by record. A record boundary is no packet
boundary, so what the reads return are slices of the concatenated payloads. -/

namespace AllInOneBackup.Kurigram

open Bytes Chunked TCP

structure FakeTlsRecords where
  prologue : Bytes
  buffer : Bytes := []
  sentChangeCipherSpec : Bool := false

namespace FakeTlsRecords

def applicationDataPrefix : Bytes := [0x17, 0x03, 0x03]
def recordLengthSize : ℕ := 2
def recordHeaderSize : ℕ := applicationDataPrefix.length + recordLengthSize
def changeCipherSpec : Bytes := [0x14, 0x03, 0x03, 0x00, 0x01, 0x01]
def maxRecordPayload : ℕ := 2878

/-- One record; its length fits in the two bytes. -/
def record (chunk : Bytes) : Bytes :=
  applicationDataPrefix ++ beBytes recordLengthSize chunk.length ++ chunk

def wrap (s : FakeTlsRecords) (data : Bytes) : Bytes × FakeTlsRecords :=
  let payload := s.prologue ++ data
  let wire := if s.sentChangeCipherSpec then [] else changeCipherSpec
  (wire ++ (pieces maxRecordPayload payload).flatMap record,
    { s with prologue := [], sentChangeCipherSpec := true })

/-- `header.hex()`. -/
def hex (bs : Bytes) : String :=
  let digit (n : ℕ) : Char := "0123456789abcdef".toList.getD n '0'
  String.ofList (bs.flatMap fun b => [digit (b.toNat / 16), digit (b.toNat % 16)])

/-- `_read_record`, with the text of the `OSError` it may raise; `_read_exactly` is
`TCP._recv_from_socket`. -/
def readRecord (reader : Reader) : Except String (Option Bytes) × Reader :=
  match (recvFromSocket recordHeaderSize).run reader with
  | (none, reader) => (.ok none, reader)
  | (some header, reader) =>
    if header.take applicationDataPrefix.length ≠ applicationDataPrefix then
      (.error ("fake-TLS: expected an application-data record, got " ++ hex header), reader)
    else
      let length := ofBE (sliceFrom header (-recordLengthSize))
      match (recvFromSocket length).run reader with
      | (record, reader) => (.ok record, reader)

/-- The bytes a reader has still to hand out. -/
def remaining : Reader → ℕ
  | [] => 0
  | .chunk c :: reader => c.length + remaining reader
  | _ :: reader => remaining reader

theorem readUpTo_remaining {length : ℤ} {data out : Bytes} {r r' : Reader}
    (h : readUpTo length data r = (some out, r')) :
    length ≤ out.length ∧ out.length + remaining r' = data.length + remaining r := by
  fun_induction readUpTo length data r with
  | case1 data r hle =>
    cases h
    exact ⟨hle, rfl⟩
  | case2 | case3 | case4 | case5 => cases h
  | case6 data b bs r hlt missing hmissing =>
    cases h
    simp only [remaining, List.length_append, List.length_take, List.length_drop] at *
    omega
  | case7 data b bs r hlt missing hmissing ih =>
    obtain ⟨hle, hsum⟩ := ih h
    refine ⟨hle, ?_⟩
    rw [hsum, remaining, List.length_append]
    omega

/-- A record that is read takes at least its header off the stream. -/
theorem readRecord_remaining {r r' : Reader} {chunk : Bytes}
    (h : readRecord r = (.ok (some chunk), r')) : remaining r' < remaining r := by
  unfold readRecord at h
  split at h
  case h_1 => cases h
  case h_2 header r₁ hheader =>
    obtain ⟨hlen, hsum⟩ := readUpTo_remaining hheader
    split at h
    case isTrue => cases h
    case isFalse =>
      dsimp only at h
      split at h
      rename_i chunk' r₂ hchunk
      cases h
      obtain ⟨-, hsum'⟩ := readUpTo_remaining hchunk
      have h5 : (recordHeaderSize : ℤ) = 5 := rfl
      simp only [List.length_nil] at hsum hsum'
      omega

def recv (s : FakeTlsRecords) (length : ℤ) (reader : Reader) :
    Except String (Option Bytes) × FakeTlsRecords × Reader :=
  if s.buffer.length < length then
    match _ : readRecord reader with
    | (.error e, reader) => (.error e, s, reader)
    | (.ok none, reader) => (.ok none, s, reader)
    | (.ok (some record), reader) => recv { s with buffer := s.buffer ++ record } length reader
  else
    (.ok (some (sliceTo s.buffer length)), { s with buffer := sliceFrom s.buffer length }, reader)
termination_by remaining reader
decreasing_by exact readRecord_remaining (by assumption)

/-! ### One read -/

/-- The reader delivers whole records, and what they hold beyond the buffer is `stream`. -/
def Holds (s : FakeTlsRecords) (r : Reader) (stream : Bytes) : Prop :=
  ∃ chunks : List Bytes, (∀ c ∈ chunks, c.length < 256 ^ recordLengthSize) ∧
    Delivers r (chunks.flatMap record) ∧ stream = s.buffer ++ chunks.flatten

theorem readRecord_nil : readRecord [] = (.ok none, []) := rfl

theorem readRecord_of_delivers {c rest : Bytes} {r : Reader}
    (hc : c.length < 256 ^ recordLengthSize) (h : Delivers r (record c ++ rest)) :
    ∃ r', readRecord r = (.ok (some c), r') ∧ Delivers r' rest := by
  set length := beBytes recordLengthSize c.length with hlength
  have hlen : length.length = recordLengthSize := length_beBytes _ _
  have hsize : (applicationDataPrefix ++ length).length = recordHeaderSize := by
    rw [List.length_append, hlen]; rfl
  rw [record, List.append_assoc (_ ++ _)] at h
  obtain ⟨r₁, hheader, h₁⟩ :=
    reads_recvFromSocket (applicationDataPrefix ++ length) (by rw [hsize]) r _ h
  obtain ⟨r₂, hchunk, h₂⟩ := reads_recvFromSocket c rfl r₁ rest h₁
  have hne : length ≠ [] := List.ne_nil_of_length_pos (by rw [hlen]; decide)
  have hval : ofBE (sliceFrom (applicationDataPrefix ++ length) (-recordLengthSize)) = c.length := by
    rw [← hlen, sliceFrom_append_neg _ _ hne, hlength, ofBE_beBytes hc]
  refine ⟨r₂, ?_, h₂⟩
  rw [readRecord, hheader]
  simp only [List.take_left, ne_eq, not_true_eq_false, ↓reduceIte, hval, hchunk]

theorem recv_of_lt {s : FakeTlsRecords} {length : ℤ} (h : s.buffer.length < length)
    (reader : Reader) : s.recv length reader = match readRecord reader with
      | (.error e, reader) => (.error e, s, reader)
      | (.ok none, reader) => (.ok none, s, reader)
      | (.ok (some record), reader) =>
        { s with buffer := s.buffer ++ record }.recv length reader := by
  rw [recv, if_pos h]
  split <;> simp_all only

theorem recv_of_le {s : FakeTlsRecords} {n : ℕ} (h : n ≤ s.buffer.length) (reader : Reader) :
    s.recv n reader =
      (.ok (some (s.buffer.take n)), { s with buffer := s.buffer.drop n }, reader) := by
  rw [recv, if_neg (by omega), sliceTo_natCast, sliceFrom_natCast]

/-- The first `n` bytes of a stream and what follows them, or `none` and all of the stream
where too little is left. -/
def slice (stream : Bytes) (n : ℕ) : Option Bytes × Bytes :=
  if n ≤ stream.length then (some (stream.take n), stream.drop n) else (none, stream)

/-- A read returns the next slice of the stream and leaves the rest of it to come. -/
theorem recv_holds {s : FakeTlsRecords} {r : Reader} {stream : Bytes} (h : Holds s r stream)
    (n : ℕ) : ∃ s' r', s.recv n r = (.ok (slice stream n).1, s', r') ∧
      Holds s' r' (slice stream n).2 := by
  obtain ⟨chunks, hchunks, hd, rfl⟩ := h
  induction chunks generalizing s r with
  | nil =>
    rw [List.flatten_nil, List.append_nil, slice]
    split_ifs with hn
    · exact ⟨_, r, recv_of_le hn r, [], by simp, hd, by simp⟩
    · obtain rfl := hd.eq_nil
      refine ⟨s, [], ?_, [], by simp, hd, by simp⟩
      rw [recv_of_lt (by omega), readRecord_nil]
  | cons c chunks ih =>
    obtain hn | hn := Nat.lt_or_ge s.buffer.length n
    · rw [List.flatMap_cons] at hd
      obtain ⟨r', hr, hd'⟩ := readRecord_of_delivers (hchunks c (by simp)) hd
      obtain ⟨s'', r'', hspec⟩ := ih (s := { s with buffer := s.buffer ++ c })
        (fun x hx => hchunks x (List.mem_cons_of_mem _ hx)) hd'
      rw [List.flatten_cons, ← List.append_assoc, recv_of_lt (by exact_mod_cast hn), hr]
      exact ⟨s'', r'', hspec⟩
    · have hle : n ≤ (s.buffer ++ (c :: chunks).flatten).length := by
        rw [List.length_append]
        omega
      rw [slice, if_pos hle, recv_of_le hn, List.take_append_of_le_length hn,
        List.drop_append_of_le_length hn]
      exact ⟨_, r, rfl, c :: chunks, hchunks, hd, rfl⟩

/-! ### Whole connections -/

/-- The concatenated output of `wrap` for some data in a row. -/
def wrapMany (s : FakeTlsRecords) : List Bytes → Bytes
  | [] => []
  | data :: rest => (s.wrap data).1 ++ (s.wrap data).2.wrapMany rest

/-- What some `recv` in a row return or raise. -/
def recvMany (s : FakeTlsRecords) (r : Reader) : List ℤ → List (Except String (Option Bytes))
  | [] => []
  | length :: rest =>
    match s.recv length r with
    | (result, s', r') => result :: s'.recvMany r' rest

/-- The consecutive slices of `stream` of some lengths. -/
def slices (stream : Bytes) : List ℕ → List (Option Bytes)
  | [] => []
  | n :: rest => (slice stream n).1 :: slices (slice stream n).2 rest

theorem recvMany_holds {s : FakeTlsRecords} {r : Reader} {stream : Bytes} (h : Holds s r stream)
    (lengths : List ℕ) : s.recvMany r (lengths.map (↑)) = (slices stream lengths).map .ok := by
  induction lengths generalizing s r stream with
  | nil => rfl
  | cons n rest ih =>
    obtain ⟨s', r', hrecv, h'⟩ := recv_holds h n
    rw [List.map_cons, recvMany, hrecv, slices, List.map_cons, ← ih h']

/-- Once the change-cipher-spec is out, only records follow. -/
theorem wrapMany_sent (s : FakeTlsRecords) (hs : s.sentChangeCipherSpec = true)
    (hp : s.prologue = []) (datas : List Bytes) : ∃ chunks : List Bytes,
      s.wrapMany datas = chunks.flatMap record ∧ chunks.flatten = datas.flatten ∧
      ∀ c ∈ chunks, c.length ≤ maxRecordPayload := by
  induction datas generalizing s with
  | nil => exact ⟨[], rfl, rfl, by simp⟩
  | cons data datas ih =>
    obtain ⟨chunks, hwire, hflat, hlen⟩ := ih (s.wrap data).2 rfl rfl
    refine ⟨pieces maxRecordPayload data ++ chunks, ?_, ?_, fun c hc => ?_⟩
    · rw [wrapMany, hwire, List.flatMap_append, wrap, if_pos hs, hp]
      simp only [List.nil_append]
    · rw [List.flatten_append, flatten_pieces (by decide), hflat, List.flatten_cons]
    · obtain hc | hc := List.mem_append.mp hc
      · exact length_of_mem_pieces hc
      · exact hlen c hc

/-- The first `wrap` sends the change-cipher-spec and the prologue ahead of its data. -/
theorem wrapMany_cons (prologue data : Bytes) (datas : List Bytes) : ∃ chunks : List Bytes,
    wrapMany { prologue := prologue } (data :: datas) =
      changeCipherSpec ++ chunks.flatMap record ∧
    chunks.flatten = prologue ++ (data :: datas).flatten ∧
    ∀ c ∈ chunks, c.length ≤ maxRecordPayload := by
  obtain ⟨chunks, hwire, hflat, hlen⟩ :=
    wrapMany_sent (wrap { prologue := prologue } data).2 rfl rfl datas
  refine ⟨pieces maxRecordPayload (prologue ++ data) ++ chunks, ?_, ?_, fun c hc => ?_⟩
  · rw [wrapMany, hwire, List.flatMap_append, ← List.append_assoc]
    rfl
  · rw [List.flatten_append, flatten_pieces (by decide), hflat, List.flatten_cons,
      List.append_assoc]
  · obtain hc | hc := List.mem_append.mp hc
    · exact length_of_mem_pieces hc
    · exact hlen c hc

/-- Without a `wrap` nothing is sent. With any, the output is one change-cipher-spec and
records of at most `maxRecordPayload` bytes that hold the prologue once and then the data;
and from every chunking of these records another end reads, in whatever lengths it asks
for, exactly the consecutive slices of the prologue and the data. -/
theorem records_lossless (prologue : Bytes) (datas : List Bytes) :
    if datas = [] then wrapMany { prologue := prologue } datas = []
    else ∃ chunks : List Bytes,
      wrapMany { prologue := prologue } datas = changeCipherSpec ++ chunks.flatMap record ∧
      chunks.flatten = prologue ++ datas.flatten ∧
      (∀ c ∈ chunks, c.length ≤ maxRecordPayload) ∧
      ∀ (peer : Bytes) (arrivals : List Bytes) (lengths : List ℕ), (∀ a ∈ arrivals, a ≠ []) →
        changeCipherSpec ++ arrivals.flatten = wrapMany { prologue := prologue } datas →
          recvMany { prologue := peer } (arrivals.map .chunk) (lengths.map (↑)) =
            (slices (prologue ++ datas.flatten) lengths).map .ok := by
  cases datas with
  | nil => rfl
  | cons data datas =>
    rw [if_neg (List.cons_ne_nil _ _)]
    obtain ⟨chunks, hwire, hflat, hlen⟩ := wrapMany_cons prologue data datas
    refine ⟨chunks, hwire, hflat, hlen, fun peer arrivals lengths hne harrivals => ?_⟩
    rw [hwire, List.append_cancel_left_eq] at harrivals
    refine recvMany_holds ⟨chunks, fun c hc => (hlen c hc).trans_lt (by decide), ?_, ?_⟩ lengths
    · exact harrivals ▸ delivers_map_chunk hne
    · rw [hflat, List.nil_append]

end FakeTlsRecords

end AllInOneBackup.Kurigram
