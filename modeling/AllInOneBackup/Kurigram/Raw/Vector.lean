import AllInOneBackup.Kurigram.Raw.Core
import Mathlib.Algebra.Order.Field.Rat
import Mathlib.Tactic.Linarith

/-! Vectors. A reader that is given no element type guesses from what is left in the buffer
for each element: four bytes are an `Int` or a `Bool`, eight are a `Long`, else the elements
are boxed objects. A boxed vector comes back whole just when the guess does not hit. -/

namespace AllInOneBackup.Kurigram.Raw

open AllInOneBackup.Bytes Raising

/-! ### Model -/

/-- `Bool.read`. -/
def Bool.read (data : ByteBuffer) : Bool × ByteBuffer :=
  let (bs, data) := data.read 4
  (ofLE bs = boolTrueId, data)

variable {τ : Type} (schema : Schema τ)

namespace Vector

/-- `Vector.ID`. -/
def id : ℕ := 0x1CB5C415

/-- `Vector.__new__` without an element type. -/
def new (value : List τ) : Except Exc Bytes := do
  let count ← Int.new value.length
  let items ← value.mapM schema.write
  return leBytes 4 id ++ count ++ items.flatten

/-- `Vector.read_bare`. -/
def readBare (b : ByteBuffer) (size : ℚ) : Except Exc (Value τ × ByteBuffer) :=
  if size = 4 then
    let (e, b) := b.read 4
    let b := b.seekBy (-4)
    if ofLE e = boolFalseId ∨ ofLE e = boolTrueId then
      let (value, b) := Bool.read b
      .ok (.bool value, b)
    else
      let (value, b) := Int.read b
      .ok (.int value, b)
  else if size = 8 then
    let (value, b) := Long.read b
    .ok (.int value, b)
  else TLObject.read schema b

/-- The reads of `n` elements, one after the other. -/
def readItems (size : ℚ) : ℕ → ByteBuffer → Except Exc (List (Value τ) × ByteBuffer)
  | 0, b => .ok ([], b)
  | n + 1, b => do
    let (item, b) ← readBare schema b size
    let (items, b) ← readItems size n b
    return (item :: items, b)

/-- `Vector.read` without an element type. The count is below 2^31, so the float `left / count`
is 4 or 8 only where the quotient is. -/
def read (data : ByteBuffer) : Except Exc (List (Value τ) × ByteBuffer) :=
  let (count, data) := Int.read data
  let (rest, data) := data.readAll
  let left := rest.length
  let size : ℚ := if count ≠ 0 then left / count else 0
  let data := data.seekBy (-left)
  readItems schema size count.toNat data

end Vector

/-! ### Boxed objects -/

/-- An object that is written as a constructor id and its fields, and that is read back from
there by just these bytes. -/
structure Boxed where
  object : τ
  bytes : Bytes
  write_eq : schema.write object = .ok bytes
  four_le : 4 ≤ bytes.length
  read_eq (pre post : Bytes) : TLObject.read schema ⟨pre ++ (bytes ++ post), pre.length⟩ =
    .ok (.object object, ⟨pre ++ (bytes ++ post), pre.length + bytes.length⟩)

namespace Vector

variable {schema}

/-- What the elements are written as. -/
def items (xs : List (Boxed schema)) : Bytes := (xs.map Boxed.bytes).flatten

theorem mapM_write (xs : List (Boxed schema)) :
    (xs.map Boxed.object).mapM schema.write = .ok (xs.map Boxed.bytes) := by
  induction xs with
  | nil => rfl
  | cons x xs ih =>
    rw [List.map_cons, List.mapM_cons, x.write_eq, ih]
    rfl

/-! ### Reading -/

/-- Where the guess does not hit, the elements are read one by one. -/
theorem readItems_items {size : ℚ} (h4 : size ≠ 4) (h8 : size ≠ 8) (xs : List (Boxed schema))
    (pre post : Bytes) :
    readItems schema size xs.length ⟨pre ++ (items xs ++ post), pre.length⟩ =
      .ok (xs.map fun x => .object x.object,
        ⟨pre ++ (items xs ++ post), pre.length + (items xs).length⟩) := by
  induction xs generalizing pre with
  | nil => rfl
  | cons x xs ih =>
    have hitems : items (x :: xs) = x.bytes ++ items xs := rfl
    have hread : readBare schema ⟨pre ++ (items (x :: xs) ++ post), pre.length⟩ size =
        .ok (.object x.object, ⟨pre ++ (items (x :: xs) ++ post), pre.length + x.bytes.length⟩) := by
      rw [readBare, if_neg h4, if_neg h8, hitems, List.append_assoc, x.read_eq]
    have hrest := ih (pre ++ x.bytes)
    rw [List.append_assoc, ← List.append_assoc x.bytes, ← hitems, List.length_append] at hrest
    rw [List.length_cons, readItems, hread]
    change (readItems schema size xs.length _ >>= _) = _
    rw [hrest, hitems, List.length_append, ← Nat.add_assoc]
    rfl

/-- Where the guess hits, what is read is a number or a bool. -/
theorem readBare_guess {size : ℚ} (h : size = 4 ∨ size = 8) (b : ByteBuffer) (x : τ)
    (b' : ByteBuffer) : readBare schema b size ≠ .ok (.object x, b') := by
  obtain rfl | rfl := h
  · rw [readBare, if_pos rfl]
    dsimp only
    split <;> exact nofun
  · rw [readBare, if_neg (by norm_num), if_pos rfl]
    exact nofun

theorem readItems_guess {size : ℚ} (h : size = 4 ∨ size = 8) (n : ℕ) (b b' : ByteBuffer)
    (x : τ) (values : List (Value τ)) :
    readItems schema size (n + 1) b ≠ .ok (.object x :: values, b') := by
  intro hread
  obtain ⟨⟨value, b₁⟩, hvalue, hread⟩ := bind_eq_ok.mp hread
  obtain ⟨⟨rest, b₂⟩, -, hread⟩ := bind_eq_ok.mp hread
  have hobject : value = .object x := by
    cases hread
    rfl
  exact readBare_guess h b x b₁ (hobject ▸ hvalue)

/-! ### The round trip -/

/-- The vector is written, and read back as the same objects, up to what follows it. -/
def RoundTrip (xs : List (Boxed schema)) (pre post : Bytes) : Prop :=
  ∃ vector, new schema (xs.map Boxed.object) = .ok vector ∧
    read schema ⟨pre ++ (vector ++ post), pre.length + 4⟩ =
      .ok (xs.map fun x => .object x.object,
        ⟨pre ++ (vector ++ post), pre.length + vector.length⟩)

theorem new_eq (xs : List (Boxed schema)) :
    new schema (xs.map Boxed.object) =
      (Int.new xs.length).map fun count => leBytes 4 id ++ count ++ items xs := by
  rw [new, List.length_map, mapM_write]
  cases Int.new xs.length <;> rfl

/-- The count of a list that is not too long. -/
theorem exists_new_count {n : ℕ} (hn : n < 2 ^ 31) :
    ∃ bs, Int.new n = .ok bs ∧ bs.length = 4 ∧ ofSignedLE bs = n := by
  have hfits : -256 ^ 4 ≤ 2 * (n : ℤ) ∧ 2 * (n : ℤ) < 256 ^ 4 := by
    norm_num
    omega
  have hbs : packSigned 4 n = some (leBytes 4 ((n : ℤ) % 256 ^ 4).toNat) := if_pos hfits
  obtain ⟨hlen, hval⟩ := packSigned_eq_some hbs
  refine ⟨_, ?_, hlen, hval⟩
  rw [Int.new, newInt, hbs]

theorem lt_of_new_count {n : ℕ} {bs : Bytes} (h : Int.new n = .ok bs) : n < 2 ^ 31 := by
  rw [Int.new, newInt, packSigned] at h
  split_ifs at h with hfits
  norm_num at hfits
  omega

/-- The size that `read` works with, and the reads of the elements behind the count. -/
theorem read_vector {xs : List (Boxed schema)} {count : Bytes} (hlen : count.length = 4)
    (hcount : ofSignedLE count = xs.length) (pre post : Bytes) :
    read schema ⟨pre ++ (leBytes 4 id ++ count ++ items xs ++ post), pre.length + 4⟩ =
      readItems schema (if xs.length ≠ 0 then ((items xs ++ post).length : ℚ) / xs.length else 0)
        xs.length ⟨pre ++ leBytes 4 id ++ count ++ (items xs ++ post),
          (pre ++ leBytes 4 id ++ count).length⟩ := by
  have hread : Int.read ⟨pre ++ (leBytes 4 id ++ count ++ items xs ++ post), pre.length + 4⟩ =
      ((xs.length : ℤ), ⟨pre ++ leBytes 4 id ++ count ++ (items xs ++ post),
        (pre ++ leBytes 4 id ++ count).length⟩) := by
    have hbytes := readInt_append (pre ++ leBytes 4 id) (items xs ++ post) hlen
    simp only [List.length_append, length_leBytes, hlen, hcount, List.append_assoc] at hbytes ⊢
    exact hbytes
  have hrest : ByteBuffer.readAll ⟨pre ++ leBytes 4 id ++ count ++ (items xs ++ post),
      (pre ++ leBytes 4 id ++ count).length⟩ =
      (items xs ++ post, ⟨pre ++ leBytes 4 id ++ count ++ (items xs ++ post),
        (pre ++ leBytes 4 id ++ count).length + (items xs ++ post).length⟩) := by
    have h := ByteBuffer.rest_append (pre ++ leBytes 4 id ++ count) (items xs ++ post)
    rw [ByteBuffer.readAll, ByteBuffer.read, if_pos (by decide), h]
  have hzero : ((xs.length : ℤ) ≠ 0) ↔ xs.length ≠ 0 := by omega
  simp only [read, hread, hrest, ByteBuffer.seekBy_neg, Int.toNat_natCast, Int.cast_natCast, hzero]

/-- A boxed vector comes back just when it has fewer than 2^31 elements, and what is left behind
its count is neither four nor eight bytes an element. -/
theorem roundTrip_iff (xs : List (Boxed schema)) (pre post : Bytes) :
    RoundTrip xs pre post ↔
      xs.length < 2 ^ 31 ∧
        (xs = [] ∨ (items xs ++ post).length ≠ 4 * xs.length ∧
          (items xs ++ post).length ≠ 8 * xs.length) := by
  have hsize : ∀ k : ℕ, xs ≠ [] → (((items xs ++ post).length : ℚ) / xs.length = k ↔
      (items xs ++ post).length = k * xs.length) := by
    intro k hne
    have hpos : (xs.length : ℚ) ≠ 0 := by
      have := List.length_pos_iff.mpr hne
      exact_mod_cast this.ne'
    rw [div_eq_iff hpos]
    exact_mod_cast Iff.rfl
  constructor
  · rintro ⟨vector, hnew, hread⟩
    rw [new_eq, map_eq_ok] at hnew
    obtain ⟨count, hcount, rfl⟩ := hnew
    have hlt := lt_of_new_count hcount
    refine ⟨hlt, or_iff_not_imp_left.mpr fun hne => ?_⟩
    obtain ⟨count', hcount', hlen, hval⟩ := exists_new_count hlt
    obtain rfl : count = count' := by
      rw [hcount] at hcount'
      exact Except.ok.inj hcount'
    rw [read_vector hlen hval] at hread
    obtain ⟨x, xs', rfl⟩ := List.exists_cons_of_ne_nil hne
    rw [if_pos (by simp)] at hread
    by_contra hguess
    rw [not_and_or, not_not, not_not] at hguess
    refine readItems_guess ?_ _ _ _ _ _ hread
    exact hguess.imp (hsize 4 hne).mpr (hsize 8 hne).mpr
  · rintro ⟨hlt, hguess⟩
    obtain ⟨count, hcount, hlen, hval⟩ := exists_new_count hlt
    refine ⟨leBytes 4 id ++ count ++ items xs, ?_, ?_⟩
    · rw [new_eq, hcount]
      rfl
    · rw [read_vector hlen hval, readItems_items]
      · simp only [List.append_assoc, List.length_append, Nat.add_assoc]
      · split_ifs with h0
        · have hne : xs ≠ [] := fun h => h0 (by rw [h]; rfl)
          obtain rfl | ⟨h4, -⟩ := hguess
          · exact absurd rfl hne
          · exact fun h => h4 ((hsize 4 hne).mp h)
        · norm_num
      · split_ifs with h0
        · have hne : xs ≠ [] := fun h => h0 (by rw [h]; rfl)
          obtain rfl | ⟨-, h8⟩ := hguess
          · exact absurd rfl hne
          · exact fun h => h8 ((hsize 8 hne).mp h)
        · norm_num

/-! ### Objects of eight bytes -/

structure InputMessageID where
  id : ℤ

/-- The schema of `inputMessageID#a676a322 id:int = InputMessage` alone. -/
def inputMessageSchema : Schema InputMessageID where
  objects id := if id = 0xa676a322 then some fun b =>
    let (id, b) := Int.read b
    .ok (⟨id⟩, b)
  else none
  write x := do
    let id ← Int.new x.id
    return leBytes 4 0xa676a322 ++ id

/-- The message with the id 1. -/
def inputMessage : Boxed inputMessageSchema where
  object := ⟨1⟩
  bytes := leBytes 4 0xa676a322 ++ leBytes 4 1
  write_eq := by rfl
  four_le := by decide
  read_eq pre post := by
    have hid := ByteBuffer.read_append pre (leBytes 4 0xa676a322) (leBytes 4 1 ++ post)
    have hfield := readInt_append (pre ++ leBytes 4 0xa676a322) post (length_leBytes 4 1)
    have hofLE : ofLE (leBytes 4 0xa676a322) = 0xa676a322 := ofLE_leBytes (by norm_num)
    have hone : ofSignedLE (leBytes 4 1) = 1 := by decide
    simp only [List.append_assoc, List.length_append, length_leBytes, hone] at hid hfield ⊢
    simp only [Nat.cast_ofNat] at hid
    rw [TLObject.read, hid]
    simp [hofLE, boolFalseId, boolTrueId, inputMessageSchema, Int.read, hfield, Except.map]

/-- One of them at the end of the buffer is read as a `Long`. -/
theorem inputMessage_lost : ¬RoundTrip [inputMessage] [] [] := by
  rintro ⟨vector, hnew, hread⟩
  obtain rfl : leBytes 4 id ++ leBytes 4 1 ++ inputMessage.bytes = vector := Except.ok.inj hnew
  have hcount : ofSignedLE (leBytes 4 1) = ([inputMessage].length : ℤ) := by decide
  have hleft : (items [inputMessage] ++ []).length = 8 := by decide
  rw [show inputMessage.bytes = items [inputMessage] from (List.append_nil _).symm,
    read_vector (length_leBytes 4 1) hcount, hleft] at hread
  exact readItems_guess (.inr (by norm_num)) _ _ _ _ _ hread

end Vector

end AllInOneBackup.Kurigram.Raw
