import AllInOneBackup.Data.Block
import AllInOneBackup.P115.Cipher.AccStep

/-! The key stream. Every piece of the source goes through a number that is read with the highest
byte first and written in the byte order of the call, so the other order reverses every piece. -/

namespace AllInOneBackup

namespace Bytes

/-- Numbers are combined bit by bit as their bytes are. -/
theorem ofLE_zipWith_xor {xs ys : Bytes} (h : xs.length = ys.length) :
    ofLE (List.zipWith (· ^^^ ·) xs ys) = ofLE xs ^^^ ofLE ys := by
  induction xs generalizing ys with
  | nil =>
    rw [List.length_eq_zero_iff.mp h.symm]
    rfl
  | cons x xs ih =>
    obtain ⟨y, ys, rfl⟩ := List.exists_cons_of_length_eq_add_one h.symm
    have hx := x.toNat_lt
    have hy := y.toNat_lt
    have hmod : (ofLE (x :: xs) ^^^ ofLE (y :: ys)) % 2 ^ 8 = x.toNat ^^^ y.toNat := by
      rw [Nat.xor_mod_two_pow, ofLE, ofLE]
      congr 1 <;> omega
    have hdiv : (ofLE (x :: xs) ^^^ ofLE (y :: ys)) / 2 ^ 8 = ofLE xs ^^^ ofLE ys := by
      rw [Nat.xor_div_two_pow, ofLE, ofLE]
      congr 1 <;> omega
    rw [List.zipWith_cons_cons, ofLE, ih (Nat.succ.inj h), ← hdiv, UInt8.toNat_xor, ← hmod]
    omega

theorem beBytes_xor {xs ys : Bytes} (h : xs.length = ys.length) :
    ofBE xs ^^^ ofBE ys = ofBE (List.zipWith (· ^^^ ·) xs ys) := by
  rw [ofBE, ofBE, ofBE, List.reverse_zipWith h]
  exact (ofLE_zipWith_xor (by simpa using h)).symm

end Bytes

namespace P115.Cipher

open Bytes Chunked

/-! ### Model -/

inductive ByteOrder
  | little | big
  deriving DecidableEq

/-- `int.to_bytes(n, size, byteorder)`; an overflow raises. -/
def toBytes (n size : ℕ) : ByteOrder → Option Bytes
  | .little => if n < 256 ^ size then some (leBytes size n) else none
  | .big => if n < 256 ^ size then some (beBytes size n) else none

/-- `bytes_xor`; without a size the arguments are used whole. -/
def bytesXor (v1 v2 : Bytes) (size : ℕ) (byteorder : ByteOrder) : Option Bytes :=
  if size ≠ 0 then toBytes (ofBE (v1.take size) ^^^ ofBE (v2.take size)) size byteorder
  else toBytes (ofBE v1 ^^^ ofBE v2) v1.length byteorder

def xor (src key : Bytes) (byteorder : ByteOrder) : Option Bytes := do
  let i := src.length &&& 0b11
  let head ← (if i ≠ 0 then bytesXor src key i byteorder else some [])
  let steps ← accStep i src.length key.length
  let secret ← steps.mapM fun (i, j, s) => bytesXor (src.extract i j) (key.take s) 0 byteorder
  return head ++ secret.flatten

/-- The first bytes of the key, as many as the length leaves modulo four, and then the key over and
over. -/
def keyStream (key : Bytes) (n : ℕ) : Bytes :=
  key.take (n % 4) ++ (List.replicate n key).flatten

/-- The key stream is put on the source, and putting it on again takes it off. -/
def Streams (src key : Bytes) (byteorder : ByteOrder) : Prop :=
  ∃ out, xor src key byteorder = some out ∧ out.length = src.length ∧
    out = List.zipWith (· ^^^ ·) src (keyStream key src.length) ∧
    xor out key byteorder = some src

/-- A list that reads the same from its end. -/
def Palindrome (bs : Bytes) : Prop := bs.reverse = bs

/-- Where `xor` cuts the source. -/
def chunks (src : Bytes) (size : ℕ) : List Bytes :=
  src.take (src.length % 4) :: pieces size (src.drop (src.length % 4))

/-- Every piece of the source reads the same from its end, and so does the key beside it. -/
def Symmetric (src key : Bytes) : Prop :=
  ∀ piece ∈ chunks src key.length, Palindrome piece ∧ Palindrome (key.take piece.length)

/-! ### Pieces -/

section Chunks

variable {src : Bytes} {size : ℕ}

theorem flatten_chunks (hsize : 0 < size) : (chunks src size).flatten = src := by
  rw [chunks, List.flatten_cons, flatten_pieces hsize, List.take_append_drop]

theorem length_of_mem_chunks (hsize : 3 ≤ size) {piece : Bytes} (h : piece ∈ chunks src size) :
    piece.length ≤ size := by
  obtain rfl | h := List.mem_cons.mp h
  · rw [List.length_take]
    omega
  · exact length_of_mem_pieces h

/-- Pieces replaced by others of the same lengths are cut where they were. -/
theorem chunks_map_flatten (hsize : 3 ≤ size) {f : Bytes → Bytes}
    (hf : ∀ p, p.length ≤ size → (f p).length = p.length) :
    chunks ((chunks src size).map f).flatten size = (chunks src size).map f := by
  have htake : (f (src.take (src.length % 4))).length = src.length % 4 := by
    rw [hf _ (by rw [List.length_take]; omega), List.length_take]
    omega
  have hlen : ((chunks src size).map f).flatten.length = src.length := by
    have hmap : (chunks src size).map (fun p => (f p).length) =
        (chunks src size).map List.length :=
      List.map_congr_left fun p hp => hf p (length_of_mem_chunks hsize hp)
    rw [List.length_flatten, List.map_map]
    refine (congrArg List.sum hmap).trans ?_
    rw [← List.length_flatten, flatten_chunks (by omega)]
  rw [chunks, hlen, chunks, List.map_cons, List.flatten_cons, List.take_left' htake,
    List.drop_left' htake, pieces_map_flatten (by omega) hf]

end Chunks

/-- Lists of pieces that are as long, one by one, are equal where the whole is. -/
theorem flatten_map_eq_iff {f g : Bytes → Bytes} (ps : List Bytes)
    (h : ∀ p ∈ ps, (f p).length = (g p).length) :
    (ps.map f).flatten = (ps.map g).flatten ↔ ∀ p ∈ ps, f p = g p := by
  induction ps with
  | nil => simp
  | cons p ps ih =>
    simp only [List.map_cons, List.flatten_cons, List.forall_mem_cons] at h ⊢
    constructor
    · intro heq
      obtain ⟨hp, hps⟩ := List.append_inj heq h.1
      exact ⟨hp, (ih h.2).mp hps⟩
    · intro ⟨hp, hps⟩
      rw [hp, (ih h.2).mpr hps]

/-! ### The key on the source -/

/-- A piece with the beginning of the key put on it. -/
def masked (key piece : Bytes) : Bytes := List.zipWith (· ^^^ ·) piece (key.take piece.length)

def ByteOrder.write : ByteOrder → Bytes → Bytes
  | .little, bs => bs.reverse
  | .big, bs => bs

theorem toBytes_ofBE (bs : Bytes) (byteorder : ByteOrder) :
    toBytes (ofBE bs) bs.length byteorder = some (byteorder.write bs) := by
  have hlt := ofBE_lt bs
  cases byteorder with
  | little =>
    have hle := leBytes_ofLE bs.reverse
    rw [List.length_reverse] at hle
    rw [toBytes, if_pos hlt, ofBE, hle]
    rfl
  | big =>
    rw [toBytes, if_pos hlt, beBytes_ofBE]
    rfl

section Key

variable {src key : Bytes}

theorem length_masked {piece : Bytes} (h : piece.length ≤ key.length) :
    (masked key piece).length = piece.length := by
  simp [masked, h]

theorem bytesXor_whole {piece : Bytes} (h : piece.length ≤ key.length) (byteorder : ByteOrder) :
    bytesXor piece (key.take piece.length) 0 byteorder =
      some (byteorder.write (masked key piece)) := by
  have hlen : piece.length = (key.take piece.length).length := by simp [h]
  have hbytes := toBytes_ofBE (masked key piece) byteorder
  rw [length_masked h] at hbytes
  rw [bytesXor, if_neg (by simp), beBytes_xor hlen]
  exact hbytes

theorem bytesXor_head (hkey : 3 ≤ key.length) (hne : src.length % 4 ≠ 0) (byteorder : ByteOrder) :
    bytesXor src key (src.length % 4) byteorder =
      some (byteorder.write (masked key (src.take (src.length % 4)))) := by
  have htake : (src.take (src.length % 4)).length = src.length % 4 := by
    rw [List.length_take]
    omega
  have hle : (src.take (src.length % 4)).length ≤ key.length := htake.trans_le (by omega)
  have hwhole := bytesXor_whole hle byteorder
  rw [bytesXor, if_neg (by simp), htake] at hwhole
  rw [bytesXor, if_pos hne]
  exact hwhole

/-- `xor` never raises; it writes one piece after the other. -/
theorem xor_eq (hkey : 3 ≤ key.length) (byteorder : ByteOrder) : xor src key byteorder =
    some ((chunks src key.length).map fun p => byteorder.write (masked key p)).flatten := by
  have hmod : src.length &&& 0b11 = src.length % 4 := Nat.and_two_pow_sub_one_eq_mod src.length 2
  have hhead : (if src.length % 4 ≠ 0 then bytesXor src key (src.length % 4) byteorder else some []) =
      some (byteorder.write (masked key (src.take (src.length % 4)))) := by
    split_ifs with hne
    · exact bytesXor_head hkey hne byteorder
    · rw [not_not.mp hne]
      cases byteorder <;> rfl
  have hsteps := mapM_accStep (by omega : 0 < key.length) src (Nat.mod_le src.length 4)
    (f := fun t => bytesXor t.1 (key.take t.2) 0 byteorder)
    fun piece hpiece => bytesXor_whole (length_of_mem_pieces hpiece) byteorder
  obtain ⟨steps, haccStep, hmapM⟩ := Option.bind_eq_some_iff.mp hsteps
  simp only [xor, hmod, hhead, haccStep, Option.bind_eq_bind, Option.bind_some]
  rw [hmapM]
  rfl

theorem zipWith_xor_zipWith_xor {xs ks : Bytes} (h : xs.length ≤ ks.length) :
    List.zipWith (· ^^^ ·) (List.zipWith (· ^^^ ·) xs ks) ks = xs := by
  induction xs generalizing ks with
  | nil => rfl
  | cons x xs ih =>
    cases ks with
    | nil => simp at h
    | cons k ks =>
      rw [List.zipWith_cons_cons, List.zipWith_cons_cons, ih (Nat.le_of_succ_le_succ h),
        UInt8.xor_assoc, UInt8.xor_self, UInt8.xor_zero]

theorem zipWith_append_right {f : UInt8 → UInt8 → UInt8} (xs ys zs : Bytes) :
    List.zipWith f xs (ys ++ zs) =
      List.zipWith f (xs.take ys.length) ys ++ List.zipWith f (xs.drop ys.length) zs := by
  induction xs generalizing ys with
  | nil => simp
  | cons x xs ih =>
    cases ys with
    | nil => simp
    | cons y ys => simp [ih]

theorem zipWith_take_right {f : UInt8 → UInt8 → UInt8} (xs ys : Bytes) :
    List.zipWith f xs (ys.take xs.length) = List.zipWith f xs ys := by
  induction xs generalizing ys with
  | nil => simp
  | cons x xs ih => cases ys <;> simp [ih]

/-- The key over and over, on as many bytes as are left of it. -/
theorem zipWith_replicate (hkey : 0 < key.length) (n : ℕ) (hn : src.length ≤ n * key.length) :
    List.zipWith (· ^^^ ·) src (List.replicate n key).flatten =
      ((pieces key.length src).map (masked key)).flatten := by
  induction src using pieces_induction hkey generalizing n with
  | nil => simp
  | step src hne ih =>
    cases n with
    | zero => exact absurd (List.length_eq_zero_iff.mp (by omega)) hne
    | succ n =>
      have hdrop : (src.drop key.length).length ≤ n * key.length := by
        rw [Nat.succ_mul] at hn
        rw [List.length_drop]
        omega
      rw [List.replicate_succ, List.flatten_cons, zipWith_append_right, ih n hdrop,
        pieces_cons hkey hne, List.map_cons, List.flatten_cons, masked, zipWith_take_right]

theorem zipWith_keyStream (hkey : 3 ≤ key.length) :
    List.zipWith (· ^^^ ·) src (keyStream key src.length) =
      ((chunks src key.length).map (masked key)).flatten := by
  have hlen : (key.take (src.length % 4)).length = src.length % 4 := by
    rw [List.length_take]
    omega
  have hrest : (src.drop (src.length % 4)).length ≤ src.length * key.length := by
    have := Nat.le_mul_of_pos_right src.length (by omega : 0 < key.length)
    rw [List.length_drop]
    omega
  have hhead : (src.take (src.length % 4)).length = src.length % 4 := by
    rw [List.length_take]
    omega
  rw [keyStream, zipWith_append_right, hlen, zipWith_replicate (by omega) _ hrest, chunks,
    List.map_cons, List.flatten_cons, masked, hhead]

theorem masked_masked {piece : Bytes} (h : piece.length ≤ key.length) :
    masked key (masked key piece) = piece := by
  rw [masked, length_masked h, masked]
  exact zipWith_xor_zipWith_xor (by simp [h])

theorem zipWith_xor_right_inj {xs ks ks' : Bytes} (h : xs.length = ks.length)
    (h' : xs.length = ks'.length) :
    List.zipWith (· ^^^ ·) xs ks = List.zipWith (· ^^^ ·) xs ks' ↔ ks = ks' := by
  induction xs generalizing ks ks' with
  | nil => simp [List.length_eq_zero_iff.mp h.symm, List.length_eq_zero_iff.mp h'.symm]
  | cons x xs ih =>
    obtain ⟨k, ks, rfl⟩ := List.exists_cons_of_length_eq_add_one h.symm
    obtain ⟨k', ks', rfl⟩ := List.exists_cons_of_length_eq_add_one h'.symm
    simp only [List.zipWith_cons_cons, List.cons.injEq, UInt8.xor_right_inj,
      ih (Nat.succ.inj h) (Nat.succ.inj h')]

theorem palindrome_masked {piece : Bytes} (h : piece.length ≤ key.length)
    (hpiece : Palindrome piece) :
    Palindrome (masked key piece) ↔ Palindrome (key.take piece.length) := by
  have hlen : piece.length = (key.take piece.length).length := by simp [h]
  rw [Palindrome, masked, List.reverse_zipWith hlen, hpiece,
    zipWith_xor_right_inj (by simpa using hlen) hlen]
  rfl

theorem xor_big (hkey : 3 ≤ key.length) :
    xor src key .big = some (List.zipWith (· ^^^ ·) src (keyStream key src.length)) := by
  rw [xor_eq hkey, zipWith_keyStream hkey]
  rfl

theorem length_le_keyStream (hkey : 3 ≤ key.length) (n : ℕ) :
    n ≤ (keyStream key n).length := by
  have := Nat.le_mul_of_pos_right n (by omega : 0 < key.length)
  simp only [keyStream, List.length_append, List.length_take, List.length_flatten,
    List.map_replicate, List.sum_replicate_nat]
  omega

theorem streams_big (hkey : 3 ≤ key.length) : Streams src key .big := by
  have hlen := length_le_keyStream hkey src.length
  have hout : (List.zipWith (· ^^^ ·) src (keyStream key src.length)).length = src.length := by
    simp [hlen]
  refine ⟨_, xor_big hkey, hout, rfl, ?_⟩
  rw [xor_big hkey, hout, zipWith_xor_zipWith_xor hlen]

/-- With the bytes of every piece in the other order, the key stream shows where the pieces do. -/
theorem xor_little_eq_iff (hkey : 3 ≤ key.length) :
    xor src key .little = some ((chunks src key.length).map (masked key)).flatten ↔
      ∀ piece ∈ chunks src key.length, Palindrome (masked key piece) := by
  rw [xor_eq hkey, Option.some.injEq]
  exact flatten_map_eq_iff _ fun _ _ => List.length_reverse

/-- Taken off again, the key leaves every piece reversed. -/
theorem xor_little_masked (hkey : 3 ≤ key.length) :
    xor ((chunks src key.length).map (masked key)).flatten key .little = some src ↔
      ∀ piece ∈ chunks src key.length, Palindrome piece := by
  have hback : ((chunks src key.length).map (masked key)).map
      (fun p => ByteOrder.little.write (masked key p)) =
        (chunks src key.length).map List.reverse := by
    rw [List.map_map]
    apply List.map_congr_left
    intro piece hpiece
    exact congrArg List.reverse (masked_masked (length_of_mem_chunks hkey hpiece))
  rw [xor_eq hkey, chunks_map_flatten hkey fun _ => length_masked, hback, Option.some.injEq]
  have hiff := flatten_map_eq_iff (f := List.reverse) (g := id) (chunks src key.length)
    fun _ _ => List.length_reverse
  rw [List.map_id, flatten_chunks (by omega)] at hiff
  exact hiff

/-- The key stream is put on the source and taken off again exactly if the byte order is `big` or
cannot be told from it. -/
theorem streams_iff (hkey : 3 ≤ key.length) (byteorder : ByteOrder) :
    Streams src key byteorder ↔ byteorder = .big ∨ Symmetric src key := by
  cases byteorder with
  | big => exact iff_of_true (streams_big hkey) (.inl rfl)
  | little =>
    have hle : ∀ piece ∈ chunks src key.length, piece.length ≤ key.length :=
      fun _ => length_of_mem_chunks hkey
    constructor
    · rintro ⟨out, hout, -, hstream, hback⟩
      rw [hstream, zipWith_keyStream hkey] at hout hback
      have hmasked := (xor_little_eq_iff hkey).mp hout
      have hpieces := (xor_little_masked hkey).mp hback
      exact .inr fun piece hpiece => ⟨hpieces piece hpiece,
        (palindrome_masked (hle piece hpiece) (hpieces piece hpiece)).mp (hmasked piece hpiece)⟩
    · rintro (hbig | hsymmetric)
      · cases hbig
      · have hmasked : ∀ piece ∈ chunks src key.length, Palindrome (masked key piece) :=
          fun piece hpiece => (palindrome_masked (hle piece hpiece)
            (hsymmetric piece hpiece).1).mpr (hsymmetric piece hpiece).2
        obtain ⟨out, hout, hlen, hstream, -⟩ : Streams src key .big := streams_big hkey
        rw [zipWith_keyStream hkey] at hstream
        refine ⟨out, ?_, hlen, ?_, ?_⟩
        · rw [hstream]
          exact (xor_little_eq_iff hkey).mpr hmasked
        · rw [hstream, zipWith_keyStream hkey]
        · rw [hstream]
          exact (xor_little_masked hkey).mpr fun piece hpiece => (hsymmetric piece hpiece).1

end Key

/-- The bytes of one piece in the other order. -/
theorem xor_little_reverses :
    ¬∀ src key byteorder, 3 ≤ key.length → Streams src key byteorder := by
  intro h
  obtain ⟨out, hout, -, hstream, -⟩ := h [1, 2, 3, 4] [0, 0, 0, 0] .little (by decide)
  have hxor : xor [1, 2, 3, 4] [0, 0, 0, 0] .little = some [4, 3, 2, 1] := by decide +kernel
  rw [hxor, hstream] at hout
  exact absurd hout (by decide +kernel)

/-- A source and a key that read the same from their ends. -/
theorem streams_symmetric : Streams [1, 2, 2, 1] [7, 8, 8, 7] .little :=
  (streams_iff (by decide) .little).mpr (.inr (by unfold Symmetric Palindrome; decide))

end P115.Cipher

end AllInOneBackup
