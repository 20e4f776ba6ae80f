import AllInOneBackup.Data.Bytes
import AllInOneBackup.Data.Chunked

/-! The packet framings of the TCP transports and the read loop under them. `send` is what
a transport hands to `TCP.send` for a packet, `none` where it raises; on a plain connection
`TCP.send` writes it out as it is and `TCP.recv` is `_recv_from_socket`. Each framing is
self-delimiting: its `recv` takes exactly the bytes of one `send`. -/

namespace AllInOneBackup.Kurigram

open Bytes Chunked

namespace TCP

abbrev Reader := Chunked.Reader UInt8

abbrev Receive := Chunked.Receive UInt8

/-- The loop of `_recv_from_socket`. A chunk is what is in the reader's buffer when it is
read; `reader.read` takes at most the bytes that are missing. -/
def readUpTo (length : ℤ) (data : Bytes) (reader : Reader) : Option Bytes × Reader :=
  if length ≤ data.length then (some data, reader)
  else match reader with
    | [] => (none, [])
    | .timeout :: reader | .osError :: reader | .chunk [] :: reader => (none, reader)
    | .chunk (b :: bs) :: reader =>
      let missing := (length - data.length).toNat
      if missing < (b :: bs).length then
        (some (data ++ (b :: bs).take missing), .chunk ((b :: bs).drop missing) :: reader)
      else readUpTo length (data ++ b :: bs) reader

def recvFromSocket (length : ℤ) : Receive Bytes := OptionT.mk (readUpTo length [])

/-- One round of the loop on a non-empty chunk, with `missing` bytes to go. -/
theorem readUpTo_chunk (data : Bytes) {missing : ℕ} (hm : 0 < missing) {c : Bytes} (hc : c ≠ [])
    (r : Reader) : readUpTo (data.length + missing) data (.chunk c :: r) =
      if missing < c.length then (some (data ++ c.take missing), .chunk (c.drop missing) :: r)
      else readUpTo (data.length + missing) (data ++ c) r := by
  obtain ⟨b, bs, rfl⟩ := List.exists_cons_of_ne_nil hc
  have hlt : ¬((data.length : ℤ) + missing ≤ data.length) := by omega
  have hto : ((data.length : ℤ) + missing - data.length).toNat = missing := by omega
  rw [readUpTo, if_neg hlt]
  simp only [hto]

theorem readUpTo_done (data : Bytes) (r : Reader) :
    readUpTo data.length data r = (some data, r) := by
  unfold readUpTo
  rw [if_pos le_rfl]

theorem readUpTo_of_delivers {r : Reader} (data : Bytes) {xs rest : Bytes}
    (h : Delivers r (xs ++ rest)) : ∃ r',
    readUpTo (data.length + xs.length) data r = (some (data ++ xs), r') ∧ Delivers r' rest := by
  generalize hs : xs ++ rest = stream at h
  induction h generalizing data xs with
  | nil =>
    obtain ⟨rfl, rfl⟩ := List.append_eq_nil_iff.mp hs
    exact ⟨[], by simp [readUpTo_done], .nil⟩
  | @chunk c ys r hc hr ih =>
    obtain rfl | hxs := eq_or_ne xs []
    · obtain rfl : rest = c ++ ys := hs
      exact ⟨_, by simp [readUpTo_done], .chunk hc hr⟩
    · rw [readUpTo_chunk data (List.length_pos_iff.mpr hxs) hc]
      split_ifs with hlt
      · -- the chunk reaches past `xs`
        have hpre : c.take xs.length = xs := by
          have := congrArg (List.take xs.length) hs
          rwa [List.take_left, List.take_append_of_le_length hlt.le, eq_comm] at this
        have hrest : c.drop xs.length ++ ys = rest := by
          have := congrArg (List.drop xs.length) hs
          rwa [List.drop_left, List.drop_append_of_le_length hlt.le, eq_comm] at this
        have hne : c.drop xs.length ≠ [] := List.ne_nil_of_length_pos (by simpa using hlt)
        exact ⟨_, by rw [hpre], hrest ▸ Delivers.chunk hne hr⟩
      · -- `xs` goes on behind the chunk
        obtain ⟨tail, rfl⟩ : ∃ tail, xs = c ++ tail := by
          obtain ⟨t, hxs, -⟩ | ⟨t, hc', -⟩ := List.append_eq_append_iff.mp hs.symm
          · exact ⟨t, hxs⟩
          · have ht : t = [] := by
              have := congrArg List.length hc'
              rw [List.length_append] at this
              exact List.eq_nil_of_length_eq_zero (by omega)
            exact ⟨[], by rw [hc', ht]; simp⟩
        rw [List.append_assoc, List.append_cancel_left_eq] at hs
        obtain ⟨r', hr', hd⟩ := ih (data ++ c) hs
        refine ⟨r', ?_, hd⟩
        rw [← List.append_assoc, ← hr']
        congr 1
        simp only [List.length_append]
        omega

/-- The loop returns exactly the bytes asked for, in whatever chunks they come. -/
theorem reads_recvFromSocket (xs : Bytes) {length : ℤ} (hlen : length = xs.length) :
    Reads (recvFromSocket length) xs xs := by
  intro r rest h
  obtain ⟨r', hr, hd⟩ := readUpTo_of_delivers [] h
  refine ⟨r', ?_, hd⟩
  rw [List.length_nil, Nat.cast_zero, zero_add, List.nil_append] at hr
  rw [hlen]
  exact hr

/-- The `send` of a transport that keeps nothing between packets. -/
def stateless {γ : Type} (send : γ → Option Bytes) (_ : Unit) (packet : γ) :
    Option (Bytes × Unit) :=
  (send packet).map (·, ())

theorem stateless_eq_some {γ : Type} {send : γ → Option Bytes} {packet : γ} {s s' : Unit}
    {frame : Bytes} (h : stateless send s packet = some (frame, s')) :
    send packet = some frame := by
  obtain ⟨frame', hframe, heq⟩ := Option.map_eq_some_iff.mp h
  cases heq
  exact hframe

end TCP

open TCP

namespace TCPAbridged

def send (data : Bytes) : Option Bytes :=
  let length := data.length / 4
  let header :=
    if length ≤ 126 then some [UInt8.ofNat length] else (packUnsigned 3 length).map (0x7f :: ·)
  header.map (· ++ data)

def recv : Receive Bytes := do
  let length ← recvFromSocket 1
  let length ← if length = [0x7f] then recvFromSocket 3 else pure length
  recvFromSocket (ofLE length * 4)

theorem send_isSome {data : Bytes} (h : data.length < 4 * 2 ^ 24) : (send data).isSome := by
  have hlt : data.length / 4 < 256 ^ 3 := by omega
  simp only [send, packUnsigned, hlt, ↓reduceIte]
  split_ifs <;> rfl

theorem reads_recv {data frame : Bytes} (h4 : 4 ∣ data.length) (h : send data = some frame) :
    Reads recv frame data := by
  have hbody : ∀ header : Bytes, ofLE header = data.length / 4 →
      Reads (recvFromSocket (ofLE header * 4)) data data := by
    intro header hheader
    refine reads_recvFromSocket data ?_
    rw [hheader]
    omega
  obtain ⟨header, hheader, rfl⟩ := Option.map_eq_some_iff.mp h
  split_ifs at hheader with hshort
  · cases hheader
    have hlen : ofLE [UInt8.ofNat (data.length / 4)] = data.length / 4 := by
      simp only [ofLE, UInt8.toNat_ofNat']
      omega
    have hne : [UInt8.ofNat (data.length / 4)] ≠ [0x7f] := by
      intro heq
      rw [heq] at hlen
      simp only [ofLE] at hlen
      have : (0x7f : UInt8).toNat = 127 := rfl
      omega
    refine (reads_recvFromSocket [_] rfl).bind ?_
    rw [if_neg hne]
    exact (Reads.pure _).bind (hbody _ hlen)
  · obtain ⟨length, hlength, rfl⟩ := Option.map_eq_some_iff.mp hheader
    obtain ⟨hlen, hval⟩ := packUnsigned_eq_some hlength
    have hfirst : Reads (recvFromSocket 1) [0x7f] [0x7f] := reads_recvFromSocket [_] rfl
    refine hfirst.bind ?_
    rw [if_pos rfl]
    exact (reads_recvFromSocket length (by rw [hlen]; rfl)).bind (hbody _ hval)

end TCPAbridged

namespace TCPIntermediate

def send (data : Bytes) : Option Bytes := (packSigned 4 data.length).map (· ++ data)

def recv : Receive Bytes := do
  let length ← recvFromSocket 4
  recvFromSocket (ofSignedLE length)

/-- The length has to fit the signed header. -/
theorem send_isSome_iff (data : Bytes) : (send data).isSome ↔ data.length < 2 ^ 31 := by
  rw [send, Option.isSome_map, packSigned_isSome_iff]
  omega

theorem reads_recv {data frame : Bytes} (h : send data = some frame) : Reads recv frame data := by
  obtain ⟨length, hlength, rfl⟩ := Option.map_eq_some_iff.mp h
  obtain ⟨hlen, hval⟩ := packSigned_eq_some hlength
  exact (reads_recvFromSocket length (by rw [hlen]; rfl)).bind (reads_recvFromSocket data hval)

end TCPIntermediate

namespace TCPIntermediatePadded

/-- `os.urandom(os.urandom(1)[0] & 0x0F)`. -/
structure Padding where
  bytes : Bytes
  short : bytes.length ≤ 0x0F

def send (packet : Bytes × Padding) : Option Bytes :=
  let (data, padding) := packet
  (packSigned 4 (data.length + padding.bytes.length)).map (· ++ data ++ padding.bytes)

/-- What `recv` makes of the `length` bytes behind the header. -/
def unpad (length : ℤ) (data : Bytes) : Bytes :=
  if length < 24 then
    if length ≥ 8 ∧ sliceTo data 4 = [0xff, 0xff, 0xff, 0xff] then sliceTo data 8
    else sliceTo data 4
  else if sliceTo data 8 ≠ List.replicate 8 0 then
    let strip := (length - 24) % 16
    if strip ≠ 0 then sliceTo data (-strip) else data
  else data

def recv : Receive Bytes := do
  let length ← recvFromSocket 4
  let length := ofSignedLE length
  let data ← recvFromSocket length
  pure (unpad length data)

/-- The header counts the padding. -/
theorem send_isSome_iff (packet : Bytes × Padding) :
    (send packet).isSome ↔ packet.1.length + packet.2.bytes.length < 2 ^ 31 := by
  rw [send, Option.isSome_map, packSigned_isSome_iff]
  omega

/-- A packet as `mtproto.pack` makes them is told from its padding by its length alone. -/
theorem unpad_append {data : Bytes} (padding : Padding) {k : ℕ} (hk : data.length = 24 + 16 * k)
    (hkey : data.take 8 ≠ List.replicate 8 0) :
    unpad (data.length + padding.bytes.length) (data ++ padding.bytes) = data := by
  have hshort := padding.short
  have htake : sliceTo (data ++ padding.bytes) 8 = data.take 8 := by
    change sliceTo _ ((8 : ℕ) : ℤ) = _
    rw [sliceTo_natCast, List.take_append_of_le_length (by omega)]
  have hstrip : ((data.length : ℤ) + padding.bytes.length - 24) % 16 = padding.bytes.length := by
    omega
  rw [unpad, if_neg (by omega), htake, if_pos hkey, hstrip]
  obtain hp | hp := eq_or_ne padding.bytes []
  · simp [hp]
  · have hpos := List.length_pos_iff.mpr hp
    simp only [sliceTo_append_neg _ _ hp]
    exact if_pos (by omega)

theorem reads_recv {data frame : Bytes} {padding : Padding} {k : ℕ}
    (hk : data.length = 24 + 16 * k) (hkey : data.take 8 ≠ List.replicate 8 0)
    (h : send (data, padding) = some frame) : Reads recv frame data := by
  rw [send] at h
  obtain ⟨length, hlength, rfl⟩ := Option.map_eq_some_iff.mp h
  obtain ⟨hlen, hval⟩ := packSigned_eq_some hlength
  rw [List.append_assoc, ← List.append_nil (data ++ padding.bytes)]
  refine (reads_recvFromSocket length (by rw [hlen]; rfl)).bind ?_
  refine (reads_recvFromSocket (data ++ padding.bytes) (by simp [hval])).bind ?_
  rw [hval, unpad_append padding hk hkey]
  exact Reads.pure data

end TCPIntermediatePadded

structure TCPFull where
  seqNo : ℕ := 0

namespace TCPFull

def send (t : TCPFull) (data : Bytes) : Option (Bytes × TCPFull) := do
  let length ← packUnsigned 4 (data.length + 12)
  let seqNo ← packUnsigned 4 t.seqNo
  let data := length ++ seqNo ++ data
  let checksum ← packUnsigned 4 (crc32 data).toNat
  pure (data ++ checksum, { t with seqNo := t.seqNo + 1 })

/-- The length and the number of the packet have to fit their headers. -/
theorem send_eq (t : TCPFull) {data : Bytes} (hdata : data.length + 12 < 2 ^ 32)
    (hseq : t.seqNo < 2 ^ 32) : ∃ frame, t.send data = some (frame, ⟨t.seqNo + 1⟩) := by
  have hlength : packUnsigned 4 (data.length + 12) = some (leBytes 4 (data.length + 12)) :=
    if_pos hdata
  have hnumber : packUnsigned 4 t.seqNo = some (leBytes 4 t.seqNo) := if_pos hseq
  have hchecksum : ∀ bs : Bytes,
      packUnsigned 4 (crc32 bs).toNat = some (leBytes 4 (crc32 bs).toNat) :=
    fun bs => if_pos (crc32 bs).toNat_lt
  simp only [send, hlength, hnumber, hchecksum, Option.bind_eq_bind, Option.bind_some,
    Option.pure_def]
  exact ⟨_, rfl⟩

/-- A connection sends packets as long as it can count them. -/
theorem sendMany_eq {t : TCPFull} {packets : List Bytes}
    (hdata : ∀ data ∈ packets, data.length + 12 < 2 ^ 32)
    (hseq : t.seqNo + packets.length ≤ 2 ^ 32) : ∃ frames, sendMany send t packets = some frames := by
  induction packets generalizing t with
  | nil => exact ⟨[], rfl⟩
  | cons data packets ih =>
    rw [List.length_cons] at hseq
    obtain ⟨frame, hframe⟩ := t.send_eq (hdata data (by simp)) (by omega)
    have hrest : t.seqNo + 1 + packets.length ≤ 2 ^ 32 := by omega
    obtain ⟨frames, hframes⟩ := ih (t := ⟨t.seqNo + 1⟩)
      (fun data hmem => hdata data (List.mem_cons_of_mem _ hmem)) hrest
    exact ⟨frame :: frames, by simp [sendMany, hframe, hframes]⟩

def recv : Receive Bytes := do
  let lengthBytes ← recvFromSocket 4
  let packet ← recvFromSocket (ofLE lengthBytes - 4)
  let packet := lengthBytes ++ packet
  let checksum := sliceFrom packet (-4)
  let packet := sliceTo packet (-4)
  if (crc32 packet).toNat ≠ ofLE checksum then failure else pure (sliceFrom packet 8)

theorem reads_recv {t t' : TCPFull} {data frame : Bytes} (h : t.send data = some (frame, t')) :
    Reads recv frame data := by
  simp only [send, Option.bind_eq_bind, Option.bind_eq_some_iff, Option.pure_def,
    Option.some.injEq, Prod.mk.injEq] at h
  obtain ⟨length, hlength, seqNo, hseqNo, checksum, hchecksum, rfl, -⟩ := h
  obtain ⟨hl, hlval⟩ := packUnsigned_eq_some hlength
  obtain ⟨hs, -⟩ := packUnsigned_eq_some hseqNo
  obtain ⟨hc, hcval⟩ := packUnsigned_eq_some hchecksum
  have hne : checksum ≠ [] := List.ne_nil_of_length_pos (by omega)
  have h4 : (-4 : ℤ) = -checksum.length := by rw [hc]; rfl
  have hpacket : length ++ (seqNo ++ data ++ checksum) = length ++ seqNo ++ data ++ checksum := by
    simp only [List.append_assoc]
  rw [← hpacket, ← List.append_nil (seqNo ++ data ++ checksum)]
  refine (reads_recvFromSocket length (by rw [hl]; rfl)).bind ?_
  refine (reads_recvFromSocket (seqNo ++ data ++ checksum) ?_).bind ?_
  · simp only [List.length_append, hlval, hs, hc]
    omega
  · simp only [hpacket, h4, sliceTo_append_neg _ _ hne, sliceFrom_append_neg _ _ hne, hcval,
      ne_eq, not_true_eq_false, ↓reduceIte]
    have h8 : (length ++ seqNo).length = 8 := by rw [List.length_append, hl, hs]
    have hdata : sliceFrom (length ++ seqNo ++ data) 8 = data := by
      change sliceFrom _ ((8 : ℕ) : ℤ) = _
      rw [sliceFrom_natCast, ← h8, List.drop_left]
    rw [hdata]
    exact Reads.pure data

end TCPFull

/-! ### Whole connections -/

/-- A transport that keeps nothing sends every list of packets of which it sends each. -/
theorem sendMany_stateless {γ : Type} {send : γ → Option Bytes} {packets : List γ}
    (h : ∀ packet ∈ packets, (send packet).isSome) :
    ∃ frames, sendMany (stateless send) () packets = some frames :=
  sendMany_isSome (fun packet hpacket _ => by simpa [stateless] using h packet hpacket) ()

/-- Every framing is lossless on packets that its header has room for: `send` accepts them, the
peer's `recv` returns them from every chunking of the stream, and no byte is left over. -/
theorem framing_lossless :
    (∀ packets : List Bytes, (∀ data ∈ packets, 4 ∣ data.length ∧ data.length < 4 * 2 ^ 24) →
      ∃ frames, sendMany (stateless TCPAbridged.send) () packets = some frames ∧
        Lossless TCPAbridged.recv frames packets) ∧
    (∀ packets : List Bytes, (∀ data ∈ packets, data.length < 2 ^ 31) →
      ∃ frames, sendMany (stateless TCPIntermediate.send) () packets = some frames ∧
        Lossless TCPIntermediate.recv frames packets) ∧
    (∀ (t : TCPFull) (packets : List Bytes), (∀ data ∈ packets, data.length + 12 < 2 ^ 32) →
      t.seqNo + packets.length ≤ 2 ^ 32 →
      ∃ frames, sendMany TCPFull.send t packets = some frames ∧
        Lossless TCPFull.recv frames packets) ∧
    (∀ packets : List (Bytes × TCPIntermediatePadded.Padding),
      (∀ packet ∈ packets, (∃ k, packet.1.length = 24 + 16 * k) ∧
        packet.1.take 8 ≠ List.replicate 8 0 ∧
        packet.1.length + packet.2.bytes.length < 2 ^ 31) →
      ∃ frames, sendMany (stateless TCPIntermediatePadded.send) () packets = some frames ∧
        Lossless TCPIntermediatePadded.recv frames (packets.map Prod.fst)) := by
  refine ⟨fun packets h => ?_, fun packets h => ?_, fun t packets hdata hseq => ?_,
    fun packets h => ?_⟩
  · obtain ⟨frames, hframes⟩ :=
      sendMany_stateless fun data hdata => TCPAbridged.send_isSome (h data hdata).2
    refine ⟨frames, hframes, ?_⟩
    rw [← List.map_id packets]
    exact lossless_of_send (fun data hdata _ _ _ hs =>
      TCPAbridged.reads_recv (h data hdata).1 (stateless_eq_some hs)) hframes
  · obtain ⟨frames, hframes⟩ := sendMany_stateless fun data hdata =>
      (TCPIntermediate.send_isSome_iff data).mpr (h data hdata)
    refine ⟨frames, hframes, ?_⟩
    rw [← List.map_id packets]
    exact lossless_of_send (fun _ _ _ _ _ hs =>
      TCPIntermediate.reads_recv (stateless_eq_some hs)) hframes
  · obtain ⟨frames, hframes⟩ := TCPFull.sendMany_eq hdata hseq
    refine ⟨frames, hframes, ?_⟩
    rw [← List.map_id packets]
    exact lossless_of_send (fun _ _ _ _ _ hs => TCPFull.reads_recv hs) hframes
  · obtain ⟨frames, hframes⟩ := sendMany_stateless fun packet hpacket =>
      (TCPIntermediatePadded.send_isSome_iff packet).mpr (h packet hpacket).2.2
    refine ⟨frames, hframes, ?_⟩
    refine lossless_of_send (fun packet hpacket _ _ _ hs => ?_) hframes
    obtain ⟨⟨k, hk⟩, hkey, -⟩ := h packet hpacket
    exact TCPIntermediatePadded.reads_recv hk hkey (stateless_eq_some hs)

/-- Each framing on a packet or two, the padded one with three bytes of padding. -/
theorem framing_lossless_small :
    (∃ frames, sendMany (stateless TCPAbridged.send) () [[1, 2, 3, 4], []] = some frames ∧
      Lossless TCPAbridged.recv frames [[1, 2, 3, 4], []]) ∧
    (∃ frames, sendMany (stateless TCPIntermediate.send) () [[1, 2, 3, 4], []] = some frames ∧
      Lossless TCPIntermediate.recv frames [[1, 2, 3, 4], []]) ∧
    (∃ frames, sendMany TCPFull.send {} [[1, 2, 3, 4], [5]] = some frames ∧
      Lossless TCPFull.recv frames [[1, 2, 3, 4], [5]]) ∧
    (∃ frames, sendMany (stateless TCPIntermediatePadded.send) ()
        [(List.replicate 24 1, ⟨[7, 8, 9], by decide⟩)] = some frames ∧
      Lossless TCPIntermediatePadded.recv frames [List.replicate 24 1]) :=
  ⟨framing_lossless.1 [[1, 2, 3, 4], []] (by decide),
    framing_lossless.2.1 [[1, 2, 3, 4], []] (by decide),
    framing_lossless.2.2.1 {} [[1, 2, 3, 4], [5]] (by decide) (by decide),
    framing_lossless.2.2.2 [(List.replicate 24 1, ⟨[7, 8, 9], by decide⟩)] (by simp)⟩

/-- `TCPIntermediate` raises on two GiB, and `TCPFull` on four. -/
theorem header_overflows :
    (¬∀ packets : List Bytes,
      ∃ frames, sendMany (stateless TCPIntermediate.send) () packets = some frames ∧
        Lossless TCPIntermediate.recv frames packets) ∧
    sendMany TCPFull.send {} [List.replicate (2 ^ 32) 0] = none := by
  constructor
  · intro h
    obtain ⟨frames, hframes, -⟩ := h [List.replicate (2 ^ 31) 0]
    obtain ⟨⟨frame, s⟩, hsend, -⟩ := Option.bind_eq_some_iff.mp hframes
    have hsome := Option.isSome_of_eq_some (stateless_eq_some hsend)
    rw [TCPIntermediate.send_isSome_iff, List.length_replicate] at hsome
    omega
  · have hlength : packUnsigned 4 ((List.replicate (2 ^ 32) (0 : UInt8)).length + 12) = none := by
      rw [List.length_replicate]
      rfl
    simp only [sendMany, TCPFull.send, hlength, Option.bind_eq_bind, Option.bind_none]

end AllInOneBackup.Kurigram
