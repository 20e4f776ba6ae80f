import AllInOneBackup.Cloud123.Pan115.Sbox

/-! AES with a key of 16 bytes. The state has four rows; a block fills it column by column, and
decryption takes the round keys in the other order. -/

namespace AllInOneBackup.Cloud123.Pan115

/-- Four of a kind: the bytes of a row, the rows of the state, the words of a round key. -/
structure Quad (α : Type) where
  x0 : α
  x1 : α
  x2 : α
  x3 : α
  deriving DecidableEq

namespace Quad

variable {α β γ : Type}

def map (f : α → β) (q : Quad α) : Quad β := ⟨f q.x0, f q.x1, f q.x2, f q.x3⟩

def zipWith (f : α → β → γ) (p : Quad α) (q : Quad β) : Quad γ :=
  ⟨f p.x0 q.x0, f p.x1 q.x1, f p.x2 q.x2, f p.x3 q.x3⟩

/-- `q[1:] + q[:1]`. -/
def rotate (q : Quad α) : Quad α := ⟨q.x1, q.x2, q.x3, q.x0⟩

/-- `q[-1:] + q[:-1]`. -/
def rotateBack (q : Quad α) : Quad α := ⟨q.x3, q.x0, q.x1, q.x2⟩

def transpose (q : Quad (Quad α)) : Quad (Quad α) :=
  ⟨q.map x0, q.map x1, q.map x2, q.map x3⟩

end Quad

/-! ### Model -/

abbrev Column := Quad UInt8

/-- `state[row][col]`. -/
abbrev State := Quad (Quad UInt8)

/-- The words of a round key: `keys[col * 4 + row]`. -/
abbrev RoundKey := Quad (Quad UInt8)

def sub (table : List ℕ) (b : UInt8) : UInt8 := UInt8.ofNat (table.getD b.toNat 0)

def xtime (value : UInt8) : UInt8 :=
  let high := value &&& 0x80
  let value := value <<< 1
  if high ≠ 0 then value ^^^ 0x1B else value

/-- The loop of `_gmul`, with the bits of `b` that are left. -/
def gmulLoop (a : UInt8) (b : ℕ) (product : UInt8) : UInt8 :=
  if b = 0 then product
  else gmulLoop (xtime a) (b / 2) (if b % 2 = 1 then product ^^^ a else product)
termination_by b

def gmul (a : UInt8) (b : ℕ) : UInt8 := gmulLoop a b 0

def addRoundKey (state : State) (keys : RoundKey) : State :=
  Quad.zipWith (Quad.zipWith (· ^^^ ·)) state keys.transpose

def subBytes (state : State) : State := state.map (Quad.map (sub SBOX))

def invSubBytes (state : State) : State := state.map (Quad.map (sub SBOX_INV))

def shiftRows (state : State) : State :=
  ⟨state.x0, state.x1.rotate, state.x2.rotate.rotate, state.x3.rotate.rotate.rotate⟩

def invShiftRows (state : State) : State :=
  ⟨state.x0, state.x1.rotateBack, state.x2.rotateBack.rotateBack,
    state.x3.rotateBack.rotateBack.rotateBack⟩

def mixColumn (a : Column) : Column :=
  ⟨gmul a.x0 2 ^^^ gmul a.x1 3 ^^^ a.x2 ^^^ a.x3,
    a.x0 ^^^ gmul a.x1 2 ^^^ gmul a.x2 3 ^^^ a.x3,
    a.x0 ^^^ a.x1 ^^^ gmul a.x2 2 ^^^ gmul a.x3 3,
    gmul a.x0 3 ^^^ a.x1 ^^^ a.x2 ^^^ gmul a.x3 2⟩

def invMixColumn (a : Column) : Column :=
  ⟨gmul a.x0 14 ^^^ gmul a.x1 11 ^^^ gmul a.x2 13 ^^^ gmul a.x3 9,
    gmul a.x0 9 ^^^ gmul a.x1 14 ^^^ gmul a.x2 11 ^^^ gmul a.x3 13,
    gmul a.x0 13 ^^^ gmul a.x1 9 ^^^ gmul a.x2 14 ^^^ gmul a.x3 11,
    gmul a.x0 11 ^^^ gmul a.x1 13 ^^^ gmul a.x2 9 ^^^ gmul a.x3 14⟩

def mixColumns (state : State) : State := (state.transpose.map mixColumn).transpose

def invMixColumns (state : State) : State := (state.transpose.map invMixColumn).transpose

def RCON : List UInt8 := [0x01, 0x02, 0x04, 0x08, 0x10, 0x20, 0x40, 0x80, 0x1B, 0x36]

/-- The four words after a round key. -/
def nextKey (words : RoundKey) (rcon : UInt8) : RoundKey :=
  let prev := words.x3
  let transformed : Column :=
    ⟨sub SBOX prev.x1 ^^^ rcon, sub SBOX prev.x2, sub SBOX prev.x3, sub SBOX prev.x0⟩
  let w0 := Quad.zipWith (· ^^^ ·) words.x0 transformed
  let w1 := Quad.zipWith (· ^^^ ·) words.x1 w0
  let w2 := Quad.zipWith (· ^^^ ·) words.x2 w1
  let w3 := Quad.zipWith (· ^^^ ·) words.x3 w2
  ⟨w0, w1, w2, w3⟩

/-- The columns of 16 bytes; where there are fewer, the loops raise an `IndexError`. -/
def columns : Bytes → Option (Quad Column)
  | [b0, b1, b2, b3, b4, b5, b6, b7, b8, b9, b10, b11, b12, b13, b14, b15] =>
    some ⟨⟨b0, b1, b2, b3⟩, ⟨b4, b5, b6, b7⟩, ⟨b8, b9, b10, b11⟩, ⟨b12, b13, b14, b15⟩⟩
  | _ => none

def Column.bytes (a : Column) : Bytes := [a.x0, a.x1, a.x2, a.x3]

/-- The bytes of a state, column by column. -/
def bytes (state : State) : Bytes :=
  let cols := state.transpose
  Column.bytes cols.x0 ++ Column.bytes cols.x1 ++ Column.bytes cols.x2 ++ Column.bytes cols.x3

/-- `round_keys` of a key of 16 bytes; another key is refused. -/
def roundKeys (key : Bytes) : Option (List RoundKey) :=
  (columns key).map fun words => RCON.scanl nextKey words

/-- `round_keys[round_index]`; there are eleven. -/
def keyAt (keys : List RoundKey) (roundIndex : ℕ) : RoundKey :=
  keys.getD roundIndex ⟨⟨0, 0, 0, 0⟩, ⟨0, 0, 0, 0⟩, ⟨0, 0, 0, 0⟩, ⟨0, 0, 0, 0⟩⟩

def encryptRound (keys : List RoundKey) (state : State) (roundIndex : ℕ) : State :=
  addRoundKey (mixColumns (shiftRows (subBytes state))) (keyAt keys roundIndex)

def decryptRound (keys : List RoundKey) (state : State) (roundIndex : ℕ) : State :=
  invMixColumns (addRoundKey (invSubBytes (invShiftRows state)) (keyAt keys roundIndex))

def encryptState (keys : List RoundKey) (state : State) : State :=
  let state := addRoundKey state (keyAt keys 0)
  let state := (List.range' 1 9).foldl (encryptRound keys) state
  addRoundKey (shiftRows (subBytes state)) (keyAt keys 10)

def decryptState (keys : List RoundKey) (state : State) : State :=
  let state := addRoundKey state (keyAt keys 10)
  let state := (List.range' 1 9).reverse.foldl (decryptRound keys) state
  addRoundKey (invSubBytes (invShiftRows state)) (keyAt keys 0)

def encryptBlock (keys : List RoundKey) (block : Bytes) : Option Bytes :=
  (columns block).map fun cols => bytes (encryptState keys cols.transpose)

def decryptBlock (keys : List RoundKey) (block : Bytes) : Option Bytes :=
  (columns block).map fun cols => bytes (decryptState keys cols.transpose)

/-! ### Rows and columns -/

namespace Quad

variable {α β γ : Type}

@[simp] theorem transpose_transpose (q : Quad (Quad α)) : q.transpose.transpose = q := rfl

@[simp] theorem rotateBack_rotate (q : Quad α) : q.rotate.rotateBack = q := rfl

@[simp] theorem rotate_rotateBack (q : Quad α) : q.rotateBack.rotate = q := rfl

theorem map_map (f : α → β) (g : β → γ) (q : Quad α) : (q.map f).map g = q.map (g ∘ f) := rfl

theorem map_eq (f : α → β) (q : Quad α) : q.map f = ⟨f q.x0, f q.x1, f q.x2, f q.x3⟩ := rfl

theorem map_eq_self {f : α → α} (h : ∀ a, f a = a) (q : Quad α) : q.map f = q := by
  rw [map_eq, h, h, h, h]

end Quad

@[simp] theorem invShiftRows_shiftRows (state : State) :
    invShiftRows (shiftRows state) = state := by
  simp [invShiftRows, shiftRows]

@[simp] theorem shiftRows_invShiftRows (state : State) :
    shiftRows (invShiftRows state) = state := by
  simp [invShiftRows, shiftRows]

/-! ### Bytes -/

theorem sub_eq {table : List ℕ} {b : UInt8} {n : ℕ} (h : table[b.toNat]? = some n) :
    sub table b = UInt8.ofNat n := by
  rw [sub, List.getD_eq_getElem?_getD, h, Option.getD_some]

theorem invSub_sub (b : UInt8) : sub SBOX_INV (sub SBOX b) = b := by
  have hlt : b.toNat < SBOX.length := length_sbox.symm ▸ b.toNat_lt
  have hs := List.getElem?_eq_getElem hlt
  have hbyte : (UInt8.ofNat SBOX[b.toNat]).toNat = SBOX[b.toNat] :=
    UInt8.toNat_ofNat_of_lt' (lt_of_mem_sbox (List.getElem_mem hlt))
  rw [sub_eq hs, sub_eq (hbyte.symm ▸ sboxInv_sbox hs), UInt8.ofNat_toNat]

theorem sub_invSub (b : UInt8) : sub SBOX (sub SBOX_INV b) = b := by
  have hmem : b.toNat ∈ SBOX := sbox_perm.mem_iff.mpr (List.mem_range.mpr b.toNat_lt)
  obtain ⟨v, hv⟩ := List.mem_iff_getElem?.mp hmem
  obtain ⟨hlt, -⟩ := List.getElem?_eq_some_iff.mp hv
  have hbyte : (UInt8.ofNat v).toNat = v := UInt8.toNat_ofNat_of_lt' (hlt.trans_eq length_sbox)
  rw [sub_eq (sboxInv_sbox hv), sub_eq (hbyte.symm ▸ hv), UInt8.ofNat_toNat]

@[simp] theorem invSubBytes_subBytes (state : State) : invSubBytes (subBytes state) = state := by
  rw [invSubBytes, subBytes, Quad.map_map]
  apply Quad.map_eq_self
  intro row
  rw [Function.comp_apply, Quad.map_map]
  exact Quad.map_eq_self invSub_sub row

@[simp] theorem subBytes_invSubBytes (state : State) : subBytes (invSubBytes state) = state := by
  rw [invSubBytes, subBytes, Quad.map_map]
  apply Quad.map_eq_self
  intro row
  rw [Function.comp_apply, Quad.map_map]
  exact Quad.map_eq_self sub_invSub row

theorem xor_left_comm (a b c : UInt8) : a ^^^ (b ^^^ c) = b ^^^ (a ^^^ c) := by
  rw [← UInt8.xor_assoc, UInt8.xor_comm a, UInt8.xor_assoc]

theorem xor_xor_cancel_left (a b : UInt8) : a ^^^ (a ^^^ b) = b := by
  rw [← UInt8.xor_assoc, UInt8.xor_self, UInt8.zero_xor]

theorem xor_xor_cancel_right (a b : UInt8) : (a ^^^ b) ^^^ b = a := by
  rw [UInt8.xor_assoc, UInt8.xor_self, UInt8.xor_zero]

@[simp] theorem addRoundKey_addRoundKey (state : State) (keys : RoundKey) :
    addRoundKey (addRoundKey state keys) keys = state := by
  simp only [addRoundKey, Quad.zipWith, xor_xor_cancel_right]

/-! ### Columns -/

theorem xor_xor_xor_comm' (p q a b : UInt8) :
    (p ^^^ q) ^^^ (a ^^^ b) = (p ^^^ a) ^^^ (q ^^^ b) := by
  rw [UInt8.xor_assoc, xor_left_comm q, ← UInt8.xor_assoc]

theorem and_high (a : UInt8) : a &&& 0x80 = 0 ∨ a &&& 0x80 = 0x80 := by
  have hnat : (a &&& 0x80).toNat = (a.toNat.testBit 7).toNat * 2 ^ 7 := by
    rw [UInt8.toNat_and]
    exact Nat.and_two_pow a.toNat 7
  cases hbit : a.toNat.testBit 7 with
  | false => exact .inl (UInt8.toNat_inj.mp (by rw [hnat, hbit]; rfl))
  | true => exact .inr (UInt8.toNat_inj.mp (by rw [hnat, hbit]; rfl))

theorem xtime_eq (a : UInt8) :
    xtime a = (a <<< 1) ^^^ (if a &&& 0x80 ≠ 0 then 0x1B else 0) := by
  simp only [xtime]
  split_ifs
  · rfl
  · exact UInt8.xor_zero.symm

theorem xtime_xor (a b : UInt8) : xtime (a ^^^ b) = xtime a ^^^ xtime b := by
  have hhigh : (if (a ^^^ b) &&& 0x80 ≠ 0 then 0x1B else 0 : UInt8) =
      (if a &&& 0x80 ≠ 0 then 0x1B else 0) ^^^ (if b &&& 0x80 ≠ 0 then 0x1B else 0) := by
    have hmask : (a ^^^ b) &&& 0x80 = (a &&& 0x80) ^^^ (b &&& 0x80) := by
      apply UInt8.toNat_inj.mp
      simp only [UInt8.toNat_and, UInt8.toNat_xor, Nat.and_xor_distrib_right]
    rw [hmask]
    rcases and_high a with ha | ha <;> rcases and_high b with hb | hb <;> simp [ha, hb]
  rw [xtime_eq, xtime_eq, xtime_eq, hhigh, UInt8.shiftLeft_xor, xor_xor_xor_comm']

theorem gmulLoop_zero (a product : UInt8) : gmulLoop a 0 product = product := by
  rw [gmulLoop, if_pos rfl]

theorem gmulLoop_xor (a a' : UInt8) (b : ℕ) (product product' : UInt8) :
    gmulLoop (a ^^^ a') b (product ^^^ product') =
      gmulLoop a b product ^^^ gmulLoop a' b product' := by
  induction b using Nat.strong_induction_on generalizing a a' product product' with
  | _ b ih =>
    by_cases hb : b = 0
    · subst hb
      rw [gmulLoop_zero, gmulLoop_zero, gmulLoop_zero]
    · rw [gmulLoop, gmulLoop.eq_def a, gmulLoop.eq_def a', if_neg hb, if_neg hb, if_neg hb,
        xtime_xor, ← ih (b / 2) (by omega)]
      by_cases hbit : b % 2 = 1
      · rw [if_pos hbit, if_pos hbit, if_pos hbit, xor_xor_xor_comm']
      · rw [if_neg hbit, if_neg hbit, if_neg hbit]

theorem gmul_xor (a a' : UInt8) (b : ℕ) : gmul (a ^^^ a') b = gmul a b ^^^ gmul a' b :=
  gmulLoop_xor a a' b 0 0

/-- The coefficients of the two column maps. -/
theorem gmul_eq (a : UInt8) : gmul a 1 = a ∧ gmul a 2 = xtime a ∧ gmul a 3 = a ^^^ xtime a ∧
    gmul a 9 = a ^^^ xtime (xtime (xtime a)) ∧
    gmul a 11 = a ^^^ xtime a ^^^ xtime (xtime (xtime a)) ∧
    gmul a 13 = a ^^^ xtime (xtime a) ^^^ xtime (xtime (xtime a)) ∧
    gmul a 14 = xtime a ^^^ xtime (xtime a) ^^^ xtime (xtime (xtime a)) := by
  simp [gmul, gmulLoop]

/-- A row of a matrix times a column. -/
def dot (c : Quad ℕ) (a : Column) : UInt8 :=
  gmul a.x0 c.x0 ^^^ gmul a.x1 c.x1 ^^^ gmul a.x2 c.x2 ^^^ gmul a.x3 c.x3

theorem dot_eq (c : Quad ℕ) (a : Column) :
    dot c a = gmul a.x0 c.x0 ^^^ gmul a.x1 c.x1 ^^^ gmul a.x2 c.x2 ^^^ gmul a.x3 c.x3 := rfl

/-- An entry of the product of two matrices, times `a`. -/
def entryMul (c r : Quad ℕ) (a : UInt8) : UInt8 := dot c (r.map (gmul a))

/-- Two sums of four are added term by term. -/
theorem xor_sums (p₀ p₁ p₂ p₃ q₀ q₁ q₂ q₃ : UInt8) :
    (p₀ ^^^ p₁ ^^^ p₂ ^^^ p₃) ^^^ (q₀ ^^^ q₁ ^^^ q₂ ^^^ q₃) =
      (p₀ ^^^ q₀) ^^^ (p₁ ^^^ q₁) ^^^ (p₂ ^^^ q₂) ^^^ (p₃ ^^^ q₃) := by
  rw [xor_xor_xor_comm', xor_xor_xor_comm' (p₀ ^^^ p₁), xor_xor_xor_comm' p₀]

theorem dot_dot (c : Quad ℕ) (m : Quad (Quad ℕ)) (a : Column) :
    dot c (m.map (dot · a)) =
      entryMul c (m.map Quad.x0) a.x0 ^^^ entryMul c (m.map Quad.x1) a.x1 ^^^
        entryMul c (m.map Quad.x2) a.x2 ^^^ entryMul c (m.map Quad.x3) a.x3 := by
  simp only [dot_eq, entryMul, Quad.map_eq, gmul_xor]
  refine Eq.trans (congrArg₂ (· ^^^ ·) ?_ rfl) (xor_sums _ _ _ _ _ _ _ _)
  exact (congrArg₂ (· ^^^ ·) (xor_sums _ _ _ _ _ _ _ _) rfl).trans (xor_sums _ _ _ _ _ _ _ _)

/-- The first matrix inverts the second. -/
def Undoes (m m' : Quad (Quad ℕ)) : Prop := ∀ a : UInt8,
  m.map (fun c => entryMul c (m'.map Quad.x0) a) = ⟨a, 0, 0, 0⟩ ∧
  m.map (fun c => entryMul c (m'.map Quad.x1) a) = ⟨0, a, 0, 0⟩ ∧
  m.map (fun c => entryMul c (m'.map Quad.x2) a) = ⟨0, 0, a, 0⟩ ∧
  m.map (fun c => entryMul c (m'.map Quad.x3) a) = ⟨0, 0, 0, a⟩

theorem Undoes.map_dot {m m' : Quad (Quad ℕ)} (h : Undoes m m') (a : Column) :
    m.map (dot · (m'.map (dot · a))) = a := by
  obtain ⟨h0, -, -, -⟩ := h a.x0
  obtain ⟨-, h1, -, -⟩ := h a.x1
  obtain ⟨-, -, h2, -⟩ := h a.x2
  obtain ⟨-, -, -, h3⟩ := h a.x3
  simp only [Quad.map_eq, Quad.mk.injEq] at h0 h1 h2 h3
  simp only [dot_dot]
  simp only [Quad.map_eq, h0, h1, h2, h3, UInt8.xor_zero, UInt8.zero_xor]

def mixMatrix : Quad (Quad ℕ) := ⟨⟨2, 3, 1, 1⟩, ⟨1, 2, 3, 1⟩, ⟨1, 1, 2, 3⟩, ⟨3, 1, 1, 2⟩⟩

def invMixMatrix : Quad (Quad ℕ) :=
  ⟨⟨14, 11, 13, 9⟩, ⟨9, 14, 11, 13⟩, ⟨13, 9, 14, 11⟩, ⟨11, 13, 9, 14⟩⟩

theorem mixColumn_eq (a : Column) : mixColumn a = mixMatrix.map (dot · a) := by
  simp only [mixColumn, mixMatrix, Quad.map_eq, dot_eq, gmul_eq _]

theorem invMixColumn_eq (a : Column) : invMixColumn a = invMixMatrix.map (dot · a) := by
  simp only [invMixColumn, invMixMatrix, Quad.map_eq, dot_eq]

/-- The products of the entries cancel without a reduction. -/
theorem undoes_mix : Undoes invMixMatrix mixMatrix := by
  intro a
  simp only [Quad.map_eq, entryMul, dot_eq, invMixMatrix, mixMatrix, gmul_eq _, xtime_xor,
    UInt8.xor_assoc, UInt8.xor_comm, xor_left_comm, UInt8.xor_self, xor_xor_cancel_left,
    UInt8.xor_zero, and_self]

theorem undoes_invMix : Undoes mixMatrix invMixMatrix := by
  intro a
  simp only [Quad.map_eq, entryMul, dot_eq, invMixMatrix, mixMatrix, gmul_eq _, xtime_xor,
    UInt8.xor_assoc, UInt8.xor_comm, xor_left_comm, UInt8.xor_self, xor_xor_cancel_left,
    UInt8.xor_zero, and_self]

@[simp] theorem invMixColumns_mixColumns (state : State) :
    invMixColumns (mixColumns state) = state := by
  have hcolumn : ∀ a, invMixColumn (mixColumn a) = a := by
    intro a
    rw [mixColumn_eq, invMixColumn_eq]
    exact undoes_mix.map_dot a
  rw [invMixColumns, mixColumns, Quad.transpose_transpose, Quad.map_map]
  exact congrArg Quad.transpose (Quad.map_eq_self hcolumn state.transpose)

@[simp] theorem mixColumns_invMixColumns (state : State) :
    mixColumns (invMixColumns state) = state := by
  have hcolumn : ∀ a, mixColumn (invMixColumn a) = a := by
    intro a
    rw [mixColumn_eq, invMixColumn_eq]
    exact undoes_invMix.map_dot a
  rw [invMixColumns, mixColumns, Quad.transpose_transpose, Quad.map_map]
  exact congrArg Quad.transpose (Quad.map_eq_self hcolumn state.transpose)

/-! ### Rounds -/

/-- Rounds that undo each other one by one, each behind a last step `f`. -/
theorem foldl_reverse_foldl {σ κ : Type} {f : σ → σ} {run undo : σ → κ → σ}
    (h : ∀ s k, undo (f (run s k)) k = f s) (l : List κ) (s : σ) :
    l.reverse.foldl undo (f (l.foldl run s)) = f s := by
  induction l generalizing s with
  | nil => rfl
  | cons k l ih => rw [List.foldl_cons, List.reverse_cons, List.foldl_append, ih, List.foldl_cons,
      List.foldl_nil, h]

theorem decryptState_encryptState (keys : List RoundKey) (state : State) :
    decryptState keys (encryptState keys state) = state := by
  have hround : ∀ state roundIndex, decryptRound keys
      (shiftRows (subBytes (encryptRound keys state roundIndex))) roundIndex =
        shiftRows (subBytes state) := by
    intro state roundIndex
    simp [decryptRound, encryptRound]
  have hrounds := foldl_reverse_foldl (f := fun state => shiftRows (subBytes state)) hround
  simp only [decryptState, encryptState, addRoundKey_addRoundKey, hrounds, invShiftRows_shiftRows,
    invSubBytes_subBytes]

theorem encryptState_decryptState (keys : List RoundKey) (state : State) :
    encryptState keys (decryptState keys state) = state := by
  have hround : ∀ state roundIndex, encryptRound keys
      (invSubBytes (invShiftRows (decryptRound keys state roundIndex))) roundIndex =
        invSubBytes (invShiftRows state) := by
    intro state roundIndex
    simp [decryptRound, encryptRound]
  have hrounds := foldl_reverse_foldl (f := fun state => invSubBytes (invShiftRows state)) hround
    (List.range' 1 9).reverse
  rw [List.reverse_reverse] at hrounds
  simp only [decryptState, encryptState, addRoundKey_addRoundKey, hrounds, subBytes_invSubBytes,
    shiftRows_invShiftRows]

/-! ### Blocks -/

theorem columns_bytes (state : State) : columns (bytes state) = some state.transpose := rfl

theorem bytes_transpose {block : Bytes} {cols : Quad Column} (h : columns block = some cols) :
    bytes cols.transpose = block := by
  unfold columns at h
  split at h
  · cases h
    rfl
  · cases h

theorem exists_columns {block : Bytes} (h : block.length = 16) :
    ∃ cols, columns block = some cols := by
  iterate 16
    obtain _ | ⟨_, block⟩ := block
    · simp at h
  cases block with
  | nil => exact ⟨_, rfl⟩
  | cons b block => simp at h

theorem length_bytes (state : State) : (bytes state).length = 16 := rfl

theorem decryptBlock_encryptBlock (keys : List RoundKey) {block : Bytes} (h : block.length = 16) :
    (encryptBlock keys block).bind (decryptBlock keys) = some block := by
  obtain ⟨cols, hcols⟩ := exists_columns h
  rw [encryptBlock, hcols, Option.map_some, Option.bind_some, decryptBlock, columns_bytes,
    Option.map_some, Quad.transpose_transpose, decryptState_encryptState, bytes_transpose hcols]

theorem encryptBlock_decryptBlock (keys : List RoundKey) {block : Bytes} (h : block.length = 16) :
    (decryptBlock keys block).bind (encryptBlock keys) = some block := by
  obtain ⟨cols, hcols⟩ := exists_columns h
  rw [decryptBlock, hcols, Option.map_some, Option.bind_some, encryptBlock, columns_bytes,
    Option.map_some, Quad.transpose_transpose, encryptState_decryptState, bytes_transpose hcols]

end AllInOneBackup.Cloud123.Pan115
