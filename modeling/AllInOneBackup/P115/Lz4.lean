import AllInOneBackup.Data.Bytes
import AllInOneBackup.Data.SelfCopy

/-! The LZ4 block decompressor in pure Python. It copies a match in one slice, as a repeated
byte, or in slices from a fixed position that double in size; on a well-formed block each of
them is the byte-by-byte copy of the format. Where the source raises `IndexError`, or its copy
loop does not end, the result is `none`. -/

namespace AllInOneBackup.P115

open Bytes SelfCopy

namespace Lz4

/-! ### Model -/

/-- `xs[i:j]`. -/
def slice (xs : Bytes) (i j : ℤ) : Bytes := (xs.take (sliceIndex xs j)).drop (sliceIndex xs i)

/-- A length of the token and its extension: the run of 255 is counted by how far the pointer
moves. The end of the source within the run is the `IndexError` that is passed over. -/
def extendLength (len : ℕ) (src : Bytes) : ℕ × Bytes :=
  if len = 15 then
    match src.dropWhile (· = 255) with
    | [] => (len, [])
    | b :: rest => (len + (src.length - (b :: rest).length) * 255 + b.toNat, rest)
  else (len, src)

/-- The loop of the copy that doubles `offset`, with at most `fuel` rounds. -/
def doublingCopy (matchPos endPtr : ℤ) : ℕ → ℤ → ℕ → Bytes → Option Bytes
  | 0, destPtr, _, dest => if destPtr < endPtr then none else some dest
  | fuel + 1, destPtr, offset, dest =>
    if destPtr < endPtr then
      let copySize := if (offset : ℤ) < endPtr - destPtr then (offset : ℤ) else endPtr - destPtr
      doublingCopy matchPos endPtr fuel (destPtr + copySize) (offset + offset)
        (dest ++ slice dest matchPos (matchPos + copySize))
    else some dest

def copyMatch (dest : Bytes) (offset matchLen : ℕ) : Option Bytes :=
  let destPtr : ℤ := dest.length
  let matchPos := destPtr - offset
  if offset ≥ matchLen then some (dest ++ slice dest matchPos (matchPos + matchLen))
  else if offset = 1 then dest.getLast?.map fun b => dest ++ List.replicate matchLen b
  else doublingCopy matchPos (destPtr + matchLen) matchLen destPtr offset dest

/-- The loop of `lz4_block_decompress`, from what is left of the source on. -/
def decompressLoop : ℕ → Bytes → Bytes → Option Bytes
  | 0, _, _ => none
  | _ + 1, [], dest => some dest
  | fuel + 1, token :: src, dest =>
    let (litLen, src) := extendLength (token.toNat >>> 4) src
    let dest := dest ++ src.take litLen
    match src.drop litLen with
    | [] => some dest
    | [_] => none
    | lo :: hi :: src =>
      let offset := lo.toNat ||| hi.toNat <<< 8
      let (matchLen, src) := extendLength (token.toNat &&& 0x0F) src
      (copyMatch dest offset (matchLen + 4)).bind fun dest => decompressLoop fuel src dest

/-- `lz4_block_decompress`; each round takes a token, so the rounds are enough. -/
def lz4BlockDecompress (source : Bytes) : Option Bytes := decompressLoop (source.length + 1) source []

example : lz4BlockDecompress [0x12, 0x61, 0x01, 0x00, 0x10, 0x62] =
    some [0x61, 0x61, 0x61, 0x61, 0x61, 0x61, 0x61, 0x62] := by decide +kernel

/-! ### The format -/

/-- Literals, and a match behind them. -/
structure Sequence where
  literals : Bytes
  offset : ℕ
  matchLength : ℕ

/-- What the sequences mean behind `out`, with every match copied byte by byte. -/
def meaning (out : Bytes) (seqs : List Sequence) : Bytes :=
  seqs.foldl (fun out s => selfCopy s.offset s.matchLength (out ++ s.literals)) out

/-- Every offset fits two bytes and points into what has been produced. -/
def Valid : Bytes → List Sequence → Prop
  | _, [] => True
  | out, s :: seqs => 1 ≤ s.offset ∧ s.offset ≤ (out ++ s.literals).length ∧ s.offset < 65536 ∧
      4 ≤ s.matchLength ∧ Valid (selfCopy s.offset s.matchLength (out ++ s.literals)) seqs

/-- The part of a length that is in the token. -/
def nibble (n : ℕ) : ℕ := min n 15

/-- The rest of it: bytes of 255 and a smaller one. -/
def extension (n : ℕ) : Bytes :=
  if n < 15 then [] else List.replicate ((n - 15) / 255) 255 ++ [UInt8.ofNat ((n - 15) % 255)]

/-- A token from its two nibbles. -/
def tokenByte (high low : ℕ) : UInt8 := UInt8.ofNat (high * 16 + low)

def Sequence.bytes (s : Sequence) : Bytes :=
  tokenByte (nibble s.literals.length) (nibble (s.matchLength - 4)) ::
    extension s.literals.length ++ s.literals ++ leBytes 2 s.offset ++ extension (s.matchLength - 4)

/-- A well-formed block. The low nibble of its last token has no meaning. -/
structure Block where
  sequences : List Sequence
  last : Bytes
  unused : Fin 16
  valid : Valid [] sequences

namespace Block

def bytes (b : Block) : Bytes :=
  (b.sequences.flatMap Sequence.bytes) ++
    tokenByte (nibble b.last.length) b.unused :: extension b.last.length ++ b.last

/-- The reference decoder. -/
def decode (b : Block) : Bytes := meaning [] b.sequences ++ b.last

end Block

/-! ### The copy strategies -/

theorem slice_natCast (xs : Bytes) (i n : ℕ) : slice xs i ((i : ℤ) + n) = (xs.drop i).take n := by
  have hcast : (i : ℤ) + n = ((i + n : ℕ) : ℤ) := by push_cast; rfl
  have hto : ∀ m : ℕ, sliceIndex xs (m : ℤ) = m := fun m => by simp [sliceIndex]
  rw [slice, hcast, hto, hto, List.drop_take, Nat.add_sub_cancel_left]

/-- The doubling copy, with `k * offset` bytes from the fixed position on and a source slice of
`k * offset` bytes next. -/
theorem doublingCopy_eq {offset : ℕ} {out : Bytes} (hpos : 0 < offset) {start : ℕ}
    (hstart : start + offset = out.length) (endPtr : ℕ) :
    ∀ (fuel k : ℕ) (dest : Bytes), SelfCopied offset out dest → 0 < k →
      start + k * offset = dest.length → dest.length ≤ endPtr → endPtr - dest.length ≤ fuel →
      ∃ r, doublingCopy start endPtr fuel dest.length (k * offset) dest = some r ∧
        SelfCopied offset out r ∧ r.length = endPtr := by
  intro fuel
  induction fuel with
  | zero =>
    intro k dest h hk hlen hle hfuel
    have hnot : ¬((dest.length : ℤ) < endPtr) := by omega
    exact ⟨dest, by rw [doublingCopy, if_neg hnot], h, by omega⟩
  | succ fuel ih =>
    intro k dest h hk hlen hle hfuel
    rw [doublingCopy]
    by_cases hlt : (dest.length : ℤ) < endPtr
    · have hkpos : 0 < k * offset := Nat.mul_pos hk hpos
      rw [if_pos hlt]
      have hsize : (if ((k * offset : ℕ) : ℤ) < endPtr - dest.length then ((k * offset : ℕ) : ℤ)
          else endPtr - dest.length) = ((min (k * offset) (endPtr - dest.length) : ℕ) : ℤ) := by
        split_ifs <;> omega
      simp only [hsize]
      set size := min (k * offset) (endPtr - dest.length) with hsizeDef
      have hslice : slice dest start (start + size) = (dest.drop start).take size :=
        slice_natCast dest start size
      rw [hslice]
      have hnext := h.append_slice hk hpos hlen hstart (n := size) (by omega)
      have hnextLen : (dest ++ (dest.drop start).take size).length = dest.length + size := by
        rw [List.length_append, List.length_take, List.length_drop]
        omega
      have hptr : ((dest.length : ℤ) + size) = ((dest ++ (dest.drop start).take size).length : ℕ) := by
        rw [hnextLen]
        push_cast
        rfl
      rw [hptr]
      by_cases hfull : k * offset ≤ endPtr - dest.length
      · -- a whole slice: the distance from the fixed position doubles
        have hdouble : k * offset + k * offset = (k + k) * offset := (Nat.add_mul k k offset).symm
        rw [hdouble]
        exact ih (k + k) _ hnext (by omega) (by omega) (by omega) (by omega)
      · -- the last, shorter slice
        have hend : ¬(((dest ++ (dest.drop start).take size).length : ℤ) < endPtr) := by
          rw [hnextLen]
          omega
        refine ⟨_, ?_, hnext, by omega⟩
        cases fuel with
        | zero => rw [doublingCopy, if_neg hend]
        | succ fuel => rw [doublingCopy, if_neg hend]
    · rw [if_neg hlt]
      exact ⟨dest, rfl, h, by omega⟩

theorem selfCopied_replicate {dest : Bytes} {b : UInt8} (hlast : dest.getLast? = some b) (n : ℕ) :
    SelfCopied 1 dest (dest ++ List.replicate n b) := by
  refine ⟨List.prefix_append _ _, fun i hlo hi => ?_⟩
  rw [List.length_append, List.length_replicate] at hi
  rw [List.getElem?_append_right hlo, List.getElem?_replicate, if_pos (by omega)]
  by_cases h : i - 1 < dest.length
  · have hi' : i = dest.length := by omega
    rw [List.getElem?_append_left h, hi', ← List.getLast?_eq_getElem?, hlast]
  · rw [List.getElem?_append_right (by omega), List.getElem?_replicate, if_pos (by omega)]

/-- Each strategy is the copy of one byte at a time. -/
theorem copyMatch_eq {dest : Bytes} {offset : ℕ} (hpos : 0 < offset) (hle : offset ≤ dest.length)
    (n : ℕ) : copyMatch dest offset n = some (selfCopy offset n dest) := by
  have hcast : (dest.length : ℤ) - offset = ((dest.length - offset : ℕ) : ℤ) := by omega
  have hfrom : dest.length - offset + offset = dest.length := by omega
  simp only [copyMatch, hcast]
  split_ifs with hlong hone
  · congr 1
    rw [slice_natCast, selfCopied_iff hpos hle]
    refine ⟨(SelfCopied.refl offset dest).append_slice Nat.one_pos hpos ?_ hfrom ?_, ?_⟩
    · omega
    · omega
    · rw [List.length_append, List.length_take, List.length_drop]
      omega
  · subst hone
    obtain ⟨b, hb⟩ : ∃ b, dest.getLast? = some b := by
      refine Option.isSome_iff_exists.mp (List.getLast?_isSome.mpr ?_)
      exact List.ne_nil_of_length_pos (by omega)
    rw [hb, Option.map_some]
    congr 1
    rw [selfCopied_iff hpos hle]
    exact ⟨selfCopied_replicate hb n, by simp⟩
  · have hend : (dest.length : ℤ) + n = ((dest.length + n : ℕ) : ℤ) := by push_cast; rfl
    obtain ⟨r, hr, hcopied, hlen⟩ := doublingCopy_eq hpos hfrom (dest.length + n) n 1 dest
      (.refl offset dest) Nat.one_pos (by omega) (by omega) (by omega)
    rw [Nat.one_mul] at hr
    rw [hend, hr]
    congr 1
    exact (selfCopied_iff hpos hle).mpr ⟨hcopied, hlen⟩

/-! ### Lengths, tokens and offsets -/

theorem extendLength_extension (n : ℕ) (rest : Bytes) :
    extendLength (nibble n) (extension n ++ rest) = (n, rest) := by
  unfold nibble extension extendLength
  by_cases h : n < 15
  · rw [if_neg (by omega), if_pos h, Nat.min_eq_left (by omega)]
    rfl
  · have hlast : ¬(UInt8.ofNat ((n - 15) % 255) = 255) := by
      intro heq
      have := congrArg UInt8.toNat heq
      rw [UInt8.toNat_ofNat'] at this
      simp only [UInt8.reduceToNat] at this
      omega
    rw [if_pos (by omega), if_neg h, List.append_assoc, List.dropWhile_append_of_pos]
    · rw [List.singleton_append, List.dropWhile_cons_of_neg (by simpa using hlast)]
      simp only [List.length_append, List.length_replicate, List.length_cons, UInt8.toNat_ofNat',
        Prod.mk.injEq, and_true]
      omega
    · intro b hb
      simp [List.eq_of_mem_replicate hb]

theorem tokenByte_shiftRight {high low : ℕ} (hh : high < 16) (hl : low < 16) :
    (tokenByte high low).toNat >>> 4 = high := by
  rw [tokenByte, UInt8.toNat_ofNat', Nat.shiftRight_eq_div_pow]
  omega

theorem tokenByte_and {high low : ℕ} (hl : low < 16) :
    (tokenByte high low).toNat &&& 0x0F = low := by
  rw [tokenByte, UInt8.toNat_ofNat', Nat.and_two_pow_sub_one_eq_mod _ 4]
  omega

theorem nibble_lt (n : ℕ) : nibble n < 16 := by
  unfold nibble
  omega

theorem leBytes_two {n : ℕ} (h : n < 65536) : ∃ lo hi, leBytes 2 n = [lo, hi] ∧
    lo.toNat ||| hi.toNat <<< 8 = n := by
  refine ⟨_, _, rfl, ?_⟩
  rw [Nat.or_comm, ← Nat.shiftLeft_add_eq_or_of_lt (UInt8.toNat_lt _), Nat.shiftLeft_eq]
  simp only [UInt8.toNat_ofNat']
  omega

/-! ### The loop -/

/-- One round of the loop on a sequence. -/
theorem decompressLoop_sequence (fuel : ℕ) {s : Sequence} {dest : Bytes} (hpos : 1 ≤ s.offset)
    (hle : s.offset ≤ (dest ++ s.literals).length) (hoff : s.offset < 65536)
    (hmatch : 4 ≤ s.matchLength) (rest : Bytes) :
    decompressLoop (fuel + 1) (s.bytes ++ rest) dest =
      decompressLoop fuel rest (selfCopy s.offset s.matchLength (dest ++ s.literals)) := by
  obtain ⟨lo, hi, hbytes, hvalue⟩ := leBytes_two hoff
  simp only [Sequence.bytes, hbytes, List.cons_append, List.append_assoc, decompressLoop,
    tokenByte_shiftRight (nibble_lt _) (nibble_lt _), tokenByte_and (nibble_lt _),
    extendLength_extension, List.take_left, List.drop_left, List.nil_append, hvalue]
  rw [copyMatch_eq hpos hle, Option.bind_some, Nat.sub_add_cancel hmatch]

theorem length_sequence_pos (s : Sequence) : 0 < s.bytes.length := Nat.succ_pos _

/-- The whole loop on the sequences and the last literals of a block. -/
theorem decompressLoop_eq (seqs : List Sequence) (last : Bytes) (unused : Fin 16) :
    ∀ (fuel : ℕ) (dest : Bytes), Valid dest seqs →
      (seqs.flatMap Sequence.bytes ++ tokenByte (nibble last.length) unused ::
        extension last.length ++ last).length < fuel →
      decompressLoop fuel (seqs.flatMap Sequence.bytes ++ tokenByte (nibble last.length) unused ::
        extension last.length ++ last) dest = some (meaning dest seqs ++ last) := by
  induction seqs with
  | nil =>
    intro fuel dest _ hfuel
    obtain ⟨fuel, rfl⟩ := Nat.exists_eq_add_of_lt hfuel
    simp only [List.flatMap_nil, List.nil_append, List.cons_append, decompressLoop,
      tokenByte_shiftRight (nibble_lt _) unused.isLt, extendLength_extension]
    rw [List.take_of_length_le le_rfl, List.drop_of_length_le le_rfl]
    rfl
  | cons s seqs ih =>
    intro fuel dest hvalid hfuel
    obtain ⟨hpos, hle, hoff, hmatch, hrest⟩ := hvalid
    have hs := length_sequence_pos s
    rw [List.flatMap_cons] at hfuel ⊢
    simp only [List.append_assoc, List.length_append] at hfuel ih ⊢
    obtain ⟨fuel, rfl⟩ : ∃ f, fuel = f + 1 := ⟨fuel - 1, by omega⟩
    rw [decompressLoop_sequence fuel hpos hle hoff hmatch]
    exact ih fuel _ hrest (by omega)

/-- On every well-formed block the decompressor returns what the reference decoder does. -/
theorem lz4BlockDecompress_eq_decode (b : Block) : lz4BlockDecompress b.bytes = some b.decode :=
  decompressLoop_eq b.sequences b.last b.unused _ [] b.valid (Nat.lt_succ_self _)

end Lz4

end AllInOneBackup.P115
