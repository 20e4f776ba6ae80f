import AllInOneBackup.Data.ByteBuffer

/-! Python's `struct` for signed little-endian numbers, each of its own width, and readers of a
buffer. A reader reads an encoding when it returns the encoded value wherever the encoding stands
at the position, and leaves the position behind it; such readers compose. -/

namespace AllInOneBackup

open Bytes

/-! ### `struct` -/

namespace Struct

/-- `struct.pack`, with the width of each number; `None` is not a number. -/
def pack : List (ℕ × Option ℤ) → Option Bytes
  | [] => some []
  | (w, value) :: fields => do
    let n ← value
    let bs ← packSigned w n
    let rest ← pack fields
    return bs ++ rest

/-- What `struct.unpack` returns for the widths. -/
@[reducible] def Fields : List ℕ → Type
  | [] => Unit
  | [_] => ℤ
  | _ :: w :: ws => ℤ × Fields (w :: ws)

def fields : (ws : List ℕ) → Bytes → Fields ws
  | [], _ => ()
  | [_], bs => ofSignedLE bs
  | w :: w' :: ws, bs => (ofSignedLE (bs.take w), fields (w' :: ws) (bs.drop w))

/-- `struct.unpack`. -/
def unpack (ws : List ℕ) (bs : Bytes) : Option (Fields ws) :=
  if bs.length = ws.sum then some (fields ws bs) else none

/-- A signed number that fits into the width. -/
def Fits (w : ℕ) (n : ℤ) : Prop := -256 ^ w ≤ 2 * n ∧ 2 * n < 256 ^ w

/-- The numbers are packed, and unpacked with the given widths they are the value. -/
def Packs (numbers : List (ℕ × Option ℤ)) (ws : List ℕ) (value : Fields ws) : Prop :=
  ∃ bs, pack numbers = some bs ∧ unpack ws bs = some value

variable {w w' : ℕ} {ws : List ℕ} {n : ℤ}

theorem exists_packSigned (h : Fits w n) :
    ∃ bs, packSigned w n = some bs ∧ bs.length = w ∧ ofSignedLE bs = n := by
  refine ⟨_, if_pos h, ?_⟩
  exact packSigned_eq_some (if_pos h)

theorem Packs.single (h : Fits w n) : Packs [(w, some n)] [w] n := by
  obtain ⟨bs, hpack, hlen, hn⟩ := exists_packSigned h
  refine ⟨bs, by simp [pack, hpack], ?_⟩
  rw [unpack, if_pos (by simpa using hlen)]
  exact congrArg some hn

theorem Packs.cons {numbers : List (ℕ × Option ℤ)} {value : Fields (w' :: ws)} (h : Fits w n)
    (h' : Packs numbers (w' :: ws) value) :
    Packs ((w, some n) :: numbers) (w :: w' :: ws) (n, value) := by
  obtain ⟨bs, hpack, hlen, hn⟩ := exists_packSigned h
  obtain ⟨bs', hpack', hunpack⟩ := h'
  obtain ⟨hlen', hvalue⟩ := Option.ite_none_right_eq_some.mp hunpack
  refine ⟨bs ++ bs', by simp [pack, hpack, hpack'], ?_⟩
  rw [unpack, if_pos (by simp only [List.length_append, List.sum_cons] at hlen' ⊢; omega)]
  subst hlen
  rw [fields, List.take_left, List.drop_left, hn, Option.some.inj hvalue]

/-! ### Readers -/

/-- Reads from a buffer that may raise. -/
abbrev Reader (ε α : Type) := StateT ByteBuffer (Except ε) α

variable {ε α β : Type}

/-- The reads one after the other. -/
def Reader.many (m : Reader ε α) : ℕ → Reader ε (List α)
  | 0 => pure []
  | n + 1 => do
    let a ← m
    let as ← m.many n
    return a :: as

def Reads (m : Reader ε α) (encoded : Bytes) (value : α) : Prop :=
  ∀ pre post, m.run ⟨pre ++ (encoded ++ post), pre.length⟩ =
    .ok (value, ⟨pre ++ (encoded ++ post), pre.length + encoded.length⟩)

namespace Reads

theorem pure (value : α) : Reads (pure value : Reader ε α) [] value := fun _ _ => rfl

theorem bind {m : Reader ε α} {f : α → Reader ε β} {bs bs' : Bytes} {a : α} {b : β}
    (h : Reads m bs a) (h' : Reads (f a) bs' b) : Reads (m >>= f) (bs ++ bs') b := by
  intro pre post
  have h₁ := h pre (bs' ++ post)
  have h₂ := h' (pre ++ bs) post
  simp only [StateT.run_bind, List.append_assoc, List.length_append, Nat.add_assoc] at *
  rw [h₁]
  exact h₂

/-- The last of several reads, which takes nothing more. -/
theorem bind_pure {m : Reader ε α} {f : α → Reader ε β} {bs : Bytes} {a : α} {b : β}
    (h : Reads m bs a) (h' : f a = Pure.pure b) : Reads (m >>= f) bs b := by
  have hpure : Reads (f a) [] b := h' ▸ pure b
  simpa using h.bind hpure

theorem map {m : Reader ε α} {bs : Bytes} {a : α} (h : Reads m bs a) (g : α → β) :
    Reads (g <$> m) bs (g a) :=
  map_eq_pure_bind g m ▸ h.bind_pure rfl

/-- As many reads as there are encodings, one behind the other. -/
theorem many {m : Reader ε α} {encodings : List Bytes} {values : List α}
    (h : List.Forall₂ (Reads m) encodings values) :
    Reads (m.many values.length) encodings.flatten values := by
  induction h with
  | nil => exact pure []
  | cons h _ ih => exact h.bind (ih.bind_pure rfl)

/-- A read of the whole buffer, whatever follows the encoding. -/
theorem run_start {m : Reader ε α} {bs : Bytes} {a : α} (h : Reads m bs a) (post : Bytes) :
    m.run ⟨bs ++ post, 0⟩ = .ok (a, ⟨bs ++ post, bs.length⟩) := by
  simpa using h [] post

end Reads

end Struct

end AllInOneBackup
