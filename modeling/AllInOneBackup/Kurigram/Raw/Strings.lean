import AllInOneBackup.Data.Struct
import AllInOneBackup.Data.Utf8
import AllInOneBackup.Kurigram.Raw.Core

/-! The byte strings and strings of TL: a length of one byte, or of three behind the byte 254,
and zeros up to the next multiple of four. -/

namespace AllInOneBackup.Kurigram.Raw

namespace Bytes

open AllInOneBackup.Bytes

/-- `bytes(-n % 4)`. -/
def zeros (n : ℕ) : Bytes := List.replicate (-n % 4 : ℤ).toNat 0

def read (data : ByteBuffer) : Bytes × ByteBuffer :=
  let (first, data) := data.read 1
  let length := ofLE first
  if length ≤ 253 then
    let (x, data) := data.read length
    (x, (data.read (-(length + 1) % 4)).2)
  else
    let (bs, data) := data.read 3
    let length := ofLE bs
    let (x, data) := data.read length
    (x, (data.read (-length % 4)).2)

def new (value : Bytes) : Except Exc Bytes :=
  if value.length ≤ 253 then
    .ok ([UInt8.ofNat value.length] ++ value ++ zeros (value.length + 1))
  else match packUnsigned 3 value.length with
    | some bs => .ok ([254] ++ bs ++ value ++ zeros value.length)
    | none => .error (.overflowError "int too big to convert")

theorem length_zeros (n : ℕ) : ((zeros n).length : ℤ) = -n % 4 := by
  rw [zeros, List.length_replicate]
  omega

/-- Every byte string below the limit of the length has an encoding that is read back. -/
theorem new_reads {value : Bytes} (h : value.length < 2 ^ 24) :
    ∃ bs, new value = .ok bs ∧ Struct.Reads (fun b => .ok (read b) : Struct.Reader Exc Bytes) bs value := by
  by_cases hshort : value.length ≤ 253
  · refine ⟨_, if_pos hshort, fun pre post => ?_⟩
    have hfirst : ofLE [UInt8.ofNat value.length] = value.length := by
      rw [ofLE, ofLE, UInt8.toNat_ofNat']
      omega
    have h₁ := ByteBuffer.read_append pre [UInt8.ofNat value.length]
      (value ++ (zeros (value.length + 1) ++ post))
    have h₂ := ByteBuffer.read_append (pre ++ [UInt8.ofNat value.length]) value
      (zeros (value.length + 1) ++ post)
    have h₃ := ByteBuffer.read_append (pre ++ [UInt8.ofNat value.length] ++ value)
      (zeros (value.length + 1)) post
    rw [length_zeros] at h₃
    simp only [List.append_assoc, List.length_append, List.length_singleton, Nat.cast_one,
      Nat.cast_add, ← Nat.add_assoc] at h₁ h₂ h₃ ⊢
    change Except.ok (read _) = _
    simp only [read, h₁, hfirst, if_pos hshort, h₂, h₃]
  · obtain ⟨bs, hbs⟩ : ∃ bs, packUnsigned 3 value.length = some bs := ⟨_, if_pos h⟩
    obtain ⟨hlen, hvalue⟩ := packUnsigned_eq_some hbs
    refine ⟨[254] ++ bs ++ value ++ zeros value.length, ?_, fun pre post => ?_⟩
    · rw [new, if_neg hshort, hbs]
    have hfirst : ¬ofLE [254] ≤ 253 := by decide
    have h₁ := ByteBuffer.read_append pre [254] (bs ++ (value ++ (zeros value.length ++ post)))
    have h₂ := ByteBuffer.read_append (pre ++ [254]) bs (value ++ (zeros value.length ++ post))
    have h₃ := ByteBuffer.read_append (pre ++ [254] ++ bs) value (zeros value.length ++ post)
    have h₄ := ByteBuffer.read_append (pre ++ [254] ++ bs ++ value) (zeros value.length) post
    rw [length_zeros] at h₄
    simp only [List.append_assoc, List.length_append, List.length_singleton, Nat.cast_one,
      hlen, Nat.cast_ofNat, ← Nat.add_assoc] at h₁ h₂ h₃ h₄ ⊢
    change Except.ok (read _) = _
    simp only [read, h₁, if_neg hfirst, h₂, hvalue, h₃, h₄]

/-- A byte string at the limit has none. -/
theorem new_of_le {value : Bytes} (h : 2 ^ 24 ≤ value.length) :
    new value = .error (.overflowError "int too big to convert") := by
  have hpack : packUnsigned 3 value.length = none := if_neg (by omega)
  rw [new, if_neg (by omega), hpack]

/-! ### In a stream -/

/-- `read`, as a reader. -/
def reader : Struct.Reader Exc Bytes := fun data => .ok (read data)

theorem four_dvd_length {value bs : Bytes} (h : new value = .ok bs) : 4 ∣ bs.length := by
  by_cases hshort : value.length ≤ 253
  · rw [new, if_pos hshort] at h
    obtain rfl := Except.ok.inj h
    have hzeros := length_zeros (value.length + 1)
    simp only [List.length_append, List.length_singleton]
    push_cast at hzeros
    omega
  · rw [new, if_neg hshort] at h
    cases hpack : packUnsigned 3 value.length with
    | none =>
      rw [hpack] at h
      exact nomatch h
    | some length =>
      rw [hpack] at h
      obtain rfl := Except.ok.inj h
      have hlen := (packUnsigned_eq_some hpack).1
      have hzeros := length_zeros value.length
      simp only [List.length_append, List.length_singleton, hlen]
      omega

/-- The encodings, each of them read back and of a length that keeps the next one aligned. -/
theorem news_read {values : List Bytes} (h : ∀ v ∈ values, v.length < 2 ^ 24) :
    ∃ encodings : List Bytes, values.mapM new = .ok encodings ∧
      List.Forall₂ (Struct.Reads reader) encodings values ∧ ∀ bs ∈ encodings, 4 ∣ bs.length := by
  induction values with
  | nil => exact ⟨[], rfl, .nil, by simp⟩
  | cons v values ih =>
    obtain ⟨hv, hvalues⟩ := List.forall_mem_cons.mp h
    obtain ⟨bs, hbs, hreads⟩ := new_reads hv
    obtain ⟨encodings, hencodings, hall, haligned⟩ := ih hvalues
    refine ⟨bs :: encodings, ?_, .cons hreads hall, ?_⟩
    · rw [List.mapM_cons, hbs, hencodings]
      rfl
    · exact List.forall_mem_cons.mpr ⟨four_dvd_length hbs, haligned⟩

theorem four_dvd_flatten {encodings : List Bytes} (h : ∀ bs ∈ encodings, 4 ∣ bs.length) :
    4 ∣ encodings.flatten.length := by
  induction encodings with
  | nil => exact dvd_zero 4
  | cons bs encodings ih =>
    obtain ⟨hbs, hrest⟩ := List.forall_mem_cons.mp h
    rw [List.flatten_cons, List.length_append]
    exact dvd_add hbs (ih hrest)

/-- In a stream of byte strings each one begins at a multiple of four, and any number of reads
returns the first of them and stops where the next one begins. -/
theorem stream_reads {values : List Bytes} (h : ∀ v ∈ values, v.length < 2 ^ 24) :
    ∃ encodings : List Bytes, values.mapM new = .ok encodings ∧ ∀ k ≤ values.length,
      4 ∣ (encodings.take k).flatten.length ∧
      ∀ pre post, (reader.many k).run ⟨pre ++ (encodings.flatten ++ post), pre.length⟩ =
        .ok (values.take k, ⟨pre ++ (encodings.flatten ++ post),
          pre.length + (encodings.take k).flatten.length⟩) := by
  obtain ⟨encodings, hencodings, hall, haligned⟩ := news_read h
  refine ⟨encodings, hencodings, fun k hk => ⟨?_, fun pre post => ?_⟩⟩
  · exact four_dvd_flatten fun bs hbs => haligned bs (List.mem_of_mem_take hbs)
  · have hmany := Struct.Reads.many (List.forall₂_take k hall)
    rw [List.length_take, Nat.min_eq_left hk] at hmany
    have hsplit : encodings.flatten =
        (encodings.take k).flatten ++ (encodings.drop k).flatten := by
      rw [← List.flatten_append, List.take_append_drop]
    rw [hsplit, List.append_assoc]
    exact hmany pre ((encodings.drop k).flatten ++ post)

/-- One byte, and 254 of them, behind one byte of something else. -/
theorem stream_reads_two : ∃ encodings : List Bytes,
    [[7], List.replicate 254 1].mapM new = .ok encodings ∧ ∀ k ≤ 2,
      4 ∣ (encodings.take k).flatten.length ∧
      ∀ pre post, (reader.many k).run ⟨pre ++ (encodings.flatten ++ post), pre.length⟩ =
        .ok ([[7], List.replicate 254 1].take k, ⟨pre ++ (encodings.flatten ++ post),
          pre.length + (encodings.take k).flatten.length⟩) :=
  stream_reads (List.forall_mem_cons.mpr ⟨by decide, List.forall_mem_singleton.mpr
    (by rw [List.length_replicate]; decide)⟩)

end Bytes

namespace String

def read (data : ByteBuffer) : Str × ByteBuffer :=
  let (bs, data) := Bytes.read data
  (Utf8.decodeReplace bs, data)

def new (value : Str) : Except Exc Bytes :=
  match Utf8.encode value with
  | some bs => Bytes.new bs
  | none => .error (.valueError "surrogates not allowed")

end String

end AllInOneBackup.Kurigram.Raw
