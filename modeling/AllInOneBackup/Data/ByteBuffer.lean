import AllInOneBackup.Data.Bytes

/-! `io.BytesIO` as a value and a position, and the rules for computations that may raise. A
read takes what is there when fewer bytes are left than asked for, and all of it for a
negative size. -/

namespace AllInOneBackup

/-! ### Computations that may raise -/

namespace Raising

variable {ε ε' α β : Type}

theorem bind_eq_ok {x : Except ε α} {f : α → Except ε β} {b : β} :
    x >>= f = .ok b ↔ ∃ a, x = .ok a ∧ f a = .ok b := by
  cases x with
  | error e => exact ⟨nofun, fun ⟨_, h, _⟩ => nomatch h⟩
  | ok a => exact ⟨fun h => ⟨a, rfl, h⟩, fun ⟨_, h, hf⟩ => by cases h; exact hf⟩

theorem map_eq_ok {x : Except ε α} {f : α → β} {b : β} :
    x.map f = .ok b ↔ ∃ a, x = .ok a ∧ f a = b := by
  cases x with
  | error e => exact ⟨nofun, fun ⟨_, h, _⟩ => nomatch h⟩
  | ok a => simp [Except.map]

theorem mapError_eq_ok {x : Except ε α} {f : ε → ε'} {a : α} :
    x.mapError f = .ok a ↔ x = .ok a := by
  cases x <;> simp [Except.mapError]

theorem ite_bind {m : Type → Type} [Monad m] {c : Prop} [Decidable c] {x y : m α} {f : α → m β} :
    (if c then x >>= f else y >>= f) = (if c then x else y) >>= f := by
  split <;> rfl

end Raising

/-! ### `BytesIO` -/

structure ByteBuffer where
  value : Bytes
  pos : ℕ

namespace ByteBuffer

/-- What is behind the position. -/
def rest (b : ByteBuffer) : Bytes := b.value.drop b.pos

/-- `b.read(n)`. -/
def read (n : ℤ) (b : ByteBuffer) : Bytes × ByteBuffer :=
  let out := if n < 0 then b.rest else b.rest.take n.toNat
  (out, { b with pos := b.pos + out.length })

/-- `b.read()`. -/
def readAll (b : ByteBuffer) : Bytes × ByteBuffer := b.read (-1)

/-- `b.seek(pos)`. -/
def seek (pos : ℕ) (b : ByteBuffer) : ByteBuffer := { b with pos }

/-- `b.seek(offset, 1)`. -/
def seekBy (offset : ℤ) (b : ByteBuffer) : ByteBuffer := { b with pos := (b.pos + offset).toNat }

variable (b : ByteBuffer)

@[simp] theorem fst_readAll : b.readAll.1 = b.rest := rfl

theorem read_of_nonneg {n : ℤ} (h : 0 ≤ n) : (b.read n).1 = b.rest.take n.toNat :=
  if_neg h.not_gt

/-- A read within the value moves the position by what it takes. -/
theorem read_of_le {n : ℕ} (h : b.pos + n ≤ b.value.length) :
    b.read n = (b.value.extract b.pos (b.pos + n), ⟨b.value, b.pos + n⟩) := by
  have hlen : (b.rest.take n).length = n := by
    rw [rest, List.length_take, List.length_drop]
    omega
  have hout : (b.read n).1 = b.rest.take n := b.read_of_nonneg (Int.natCast_nonneg n)
  refine Prod.ext ?_ ?_
  · rw [hout, rest, List.extract_eq_take_drop, Nat.add_sub_cancel_left]
  · change ByteBuffer.mk b.value (b.pos + (b.read n).1.length) = _
    rw [hout, hlen]

/-- The read of bytes that stand behind the position. -/
theorem read_append (pre bs post : Bytes) :
    ByteBuffer.read bs.length ⟨pre ++ (bs ++ post), pre.length⟩ =
      (bs, ⟨pre ++ (bs ++ post), pre.length + bs.length⟩) := by
  rw [read_of_le]
  · simp [List.extract_eq_take_drop]
  · simp only [List.length_append]
    omega

theorem rest_append (pre post : Bytes) : (ByteBuffer.mk (pre ++ post) pre.length).rest = post :=
  List.drop_left

/-- After a read, `seek` back by its length is where the read began. -/
theorem seekBy_neg (value : Bytes) (pos n : ℕ) :
    ByteBuffer.seekBy (-n) ⟨value, pos + n⟩ = ⟨value, pos⟩ := by
  simp [seekBy]

end ByteBuffer

end AllInOneBackup
