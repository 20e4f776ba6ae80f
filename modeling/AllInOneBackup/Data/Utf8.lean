import AllInOneBackup.Data.Bytes

/-! Python strings as lists of code points, surrogates included, and their UTF-8. The decoder is
the one of `errors="replace"`: each longest beginning of an ill-formed sequence becomes one
replacement character. -/

namespace AllInOneBackup

abbrev CodePoint := Fin 0x110000

instance neZeroCodePoint : NeZero 0x110000 := ⟨by decide⟩

abbrev Str := List CodePoint

/-- A text of the source. -/
def str (s : String) : Str := s.toList.map fun c => Fin.ofNat _ c.toNat

namespace Utf8

/-- The bytes of one code point; a surrogate has none. -/
def encodeChar (c : CodePoint) : Option Bytes :=
  if c.val < 0x80 then some [.ofNat c]
  else if c.val < 0x800 then some [.ofNat (0xC0 + c / 0x40), .ofNat (0x80 + c % 0x40)]
  else if 0xD800 ≤ c.val ∧ c.val < 0xE000 then none
  else if c.val < 0x10000 then
    some [.ofNat (0xE0 + c / 0x1000), .ofNat (0x80 + c / 0x40 % 0x40), .ofNat (0x80 + c % 0x40)]
  else
    some [.ofNat (0xF0 + c / 0x40000), .ofNat (0x80 + c / 0x1000 % 0x40),
      .ofNat (0x80 + c / 0x40 % 0x40), .ofNat (0x80 + c % 0x40)]

/-- `s.encode()`. -/
def encode (s : Str) : Option Bytes := (s.mapM encodeChar).map List.flatten

/-- An unfinished sequence: how many bytes it lacks, its bits so far, and the bounds of its next
byte. -/
structure Pending where
  lacks : ℕ
  code : ℕ
  low : ℕ := 0x80
  high : ℕ := 0xBF

def replacement : CodePoint := 0xFFFD

/-- A byte at the beginning of a sequence. -/
def start (b : ℕ) : Str × Option Pending :=
  if b < 0x80 then ([Fin.ofNat _ b], none)
  else if 0xC2 ≤ b ∧ b < 0xE0 then ([], some { lacks := 1, code := b % 0x20 })
  else if b = 0xE0 then ([], some { lacks := 2, code := 0, low := 0xA0 })
  else if b = 0xED then ([], some { lacks := 2, code := 0xD, high := 0x9F })
  else if 0xE0 ≤ b ∧ b < 0xF0 then ([], some { lacks := 2, code := b % 0x10 })
  else if b = 0xF0 then ([], some { lacks := 3, code := 0, low := 0x90 })
  else if b = 0xF4 then ([], some { lacks := 3, code := 4, high := 0x8F })
  else if 0xF0 ≤ b ∧ b < 0xF4 then ([], some { lacks := 3, code := b % 8 })
  else ([replacement], none)

def step (b : ℕ) : Option Pending → Str × Option Pending
  | none => start b
  | some p =>
    if p.low ≤ b ∧ b ≤ p.high then
      let code := p.code * 0x40 + b % 0x40
      if p.lacks = 1 then ([Fin.ofNat _ code], none)
      else ([], some { lacks := p.lacks - 1, code })
    else (replacement :: (start b).1, (start b).2)

def decodeFrom (p : Option Pending) : Bytes → Str
  | [] => if p.isSome then [replacement] else []
  | b :: bs => (step b.toNat p).1 ++ decodeFrom (step b.toNat p).2 bs

/-- `bs.decode(errors="replace")`. -/
def decodeReplace (bs : Bytes) : Str := decodeFrom none bs

example : decodeReplace [0xE2, 0x82, 0xAC, 0xE2, 0x28, 0xF0, 0x90] =
    [0x20AC, 0xFFFD, 0x28, 0xFFFD] := by decide

/-! ### What was encoded is decoded -/

theorem toNat_ofNat {n : ℕ} (h : n < 256) : (UInt8.ofNat n).toNat = n := by
  rw [UInt8.toNat_ofNat', Nat.mod_eq_of_lt h]

theorem start_two {n : ℕ} (h : 0x80 ≤ n) (h' : n < 0x800) :
    start (0xC0 + n / 0x40) = ([], some { lacks := 1, code := n / 0x40 }) := by
  unfold start
  rw [if_neg (by omega), if_pos (by omega), show (0xC0 + n / 0x40) % 0x20 = n / 0x40 by omega]

theorem start_three {n : ℕ} (h : 0x800 ≤ n) (h' : n < 0x10000)
    (hsurrogate : ¬(0xD800 ≤ n ∧ n < 0xE000)) : ∃ low high,
      start (0xE0 + n / 0x1000) = ([], some { lacks := 2, code := n / 0x1000, low, high }) ∧
      low ≤ 0x80 + n / 0x40 % 0x40 ∧ 0x80 + n / 0x40 % 0x40 ≤ high := by
  unfold start
  rw [if_neg (by omega), if_neg (by omega)]
  by_cases hfirst : 0xE0 + n / 0x1000 = 0xE0
  · rw [if_pos hfirst, show n / 0x1000 = 0 by omega]
    exact ⟨_, _, rfl, by omega, by omega⟩
  · by_cases hlast : 0xE0 + n / 0x1000 = 0xED
    · rw [if_neg hfirst, if_pos hlast, show n / 0x1000 = 0xD by omega]
      exact ⟨_, _, rfl, by omega, by omega⟩
    · rw [if_neg hfirst, if_neg hlast, if_pos (by omega),
        show (0xE0 + n / 0x1000) % 0x10 = n / 0x1000 by omega]
      exact ⟨_, _, rfl, by omega, by omega⟩

theorem start_four {n : ℕ} (h : 0x10000 ≤ n) (h' : n < 0x110000) : ∃ low high,
    start (0xF0 + n / 0x40000) = ([], some { lacks := 3, code := n / 0x40000, low, high }) ∧
      low ≤ 0x80 + n / 0x1000 % 0x40 ∧ 0x80 + n / 0x1000 % 0x40 ≤ high := by
  unfold start
  rw [if_neg (by omega), if_neg (by omega), if_neg (by omega), if_neg (by omega),
    if_neg (by omega)]
  by_cases hfirst : 0xF0 + n / 0x40000 = 0xF0
  · rw [if_pos hfirst, show n / 0x40000 = 0 by omega]
    exact ⟨_, _, rfl, by omega, by omega⟩
  · by_cases hlast : 0xF0 + n / 0x40000 = 0xF4
    · rw [if_neg hfirst, if_pos hlast, show n / 0x40000 = 4 by omega]
      exact ⟨_, _, rfl, by omega, by omega⟩
    · rw [if_neg hfirst, if_neg hlast, if_pos (by omega),
        show (0xF0 + n / 0x40000) % 8 = n / 0x40000 by omega]
      exact ⟨_, _, rfl, by omega, by omega⟩

/-- A byte that goes on a sequence, and one that ends it. -/
theorem step_more {p : Pending} {b : ℕ} (h : p.low ≤ b ∧ b ≤ p.high) (hlacks : p.lacks ≠ 1) :
    step b (some p) = ([], some { lacks := p.lacks - 1, code := p.code * 0x40 + b % 0x40 }) := by
  rw [step, if_pos h]
  exact if_neg hlacks

theorem step_last {p : Pending} {b : ℕ} (h : p.low ≤ b ∧ b ≤ p.high) (hlacks : p.lacks = 1) :
    step b (some p) = ([Fin.ofNat _ (p.code * 0x40 + b % 0x40)], none) := by
  rw [step, if_pos h]
  exact if_pos hlacks

theorem decodeFrom_encodeChar {c : CodePoint} {bs : Bytes} (h : encodeChar c = some bs)
    (rest : Bytes) : decodeFrom none (bs ++ rest) = c :: decodeFrom none rest := by
  have hc := c.isLt
  have hval : Fin.ofNat 0x110000 c.val = c := Fin.ofNat_val_eq_self c
  unfold encodeChar at h
  split_ifs at h with h₁ h₂ h₃ h₄
  · obtain rfl := Option.some.inj h
    have hstart : start c.val = ([c], none) := by rw [start, if_pos h₁, hval]
    simp only [List.cons_append, List.nil_append, decodeFrom, toNat_ofNat (by omega : c.val < 256),
      step, hstart]
  · obtain rfl := Option.some.inj h
    simp only [List.cons_append, List.nil_append, decodeFrom,
      toNat_ofNat (by omega : 0xC0 + c.val / 0x40 < 256),
      toNat_ofNat (by omega : 0x80 + c.val % 0x40 < 256)]
    rw [step, start_two (by omega) h₂, step_last ⟨by dsimp only; omega, by dsimp only; omega⟩ rfl]
    dsimp only
    rw [show c.val / 0x40 * 0x40 + (0x80 + c.val % 0x40) % 0x40 = c.val by omega, hval]
    rfl
  · obtain rfl := Option.some.inj h
    obtain ⟨low, high, hstart, hlow, hhigh⟩ := start_three (not_lt.mp h₂) h₄ h₃
    simp only [List.cons_append, List.nil_append, decodeFrom,
      toNat_ofNat (by omega : 0xE0 + c.val / 0x1000 < 256),
      toNat_ofNat (by omega : 0x80 + c.val / 0x40 % 0x40 < 256),
      toNat_ofNat (by omega : 0x80 + c.val % 0x40 < 256)]
    rw [step, hstart, step_more ⟨hlow, hhigh⟩ (by simp)]
    dsimp only
    rw [step_last ⟨by dsimp only; omega, by dsimp only; omega⟩ rfl]
    dsimp only
    rw [show (c.val / 0x1000 * 0x40 + (0x80 + c.val / 0x40 % 0x40) % 0x40) * 0x40 +
      (0x80 + c.val % 0x40) % 0x40 = c.val by omega, hval]
    rfl
  · obtain rfl := Option.some.inj h
    obtain ⟨low, high, hstart, hlow, hhigh⟩ := start_four (not_lt.mp h₄) hc
    simp only [List.cons_append, List.nil_append, decodeFrom,
      toNat_ofNat (by omega : 0xF0 + c.val / 0x40000 < 256),
      toNat_ofNat (by omega : 0x80 + c.val / 0x1000 % 0x40 < 256),
      toNat_ofNat (by omega : 0x80 + c.val / 0x40 % 0x40 < 256),
      toNat_ofNat (by omega : 0x80 + c.val % 0x40 < 256)]
    rw [step, hstart, step_more ⟨hlow, hhigh⟩ (by simp)]
    dsimp only
    rw [step_more ⟨by dsimp only; omega, by dsimp only; omega⟩ (by simp)]
    dsimp only
    rw [step_last ⟨by dsimp only; omega, by dsimp only; omega⟩ rfl]
    dsimp only
    rw [show ((c.val / 0x40000 * 0x40 + (0x80 + c.val / 0x1000 % 0x40) % 0x40) * 0x40 +
      (0x80 + c.val / 0x40 % 0x40) % 0x40) * 0x40 + (0x80 + c.val % 0x40) % 0x40 = c.val by omega,
      hval]
    rfl

/-- A string is read back from its bytes. -/
theorem decodeReplace_encode {s : Str} {bs : Bytes} (h : encode s = some bs) :
    decodeReplace bs = s := by
  obtain ⟨parts, hparts, rfl⟩ := Option.map_eq_some_iff.mp h
  unfold decodeReplace
  induction s generalizing parts with
  | nil =>
    obtain rfl : parts = [] := by simpa using hparts.symm
    rfl
  | cons c s ih =>
    simp only [List.mapM_cons, Option.bind_eq_bind, Option.bind_eq_some_iff, Option.pure_def,
      Option.some.injEq] at hparts
    obtain ⟨first, hfirst, others, hothers, rfl⟩ := hparts
    rw [List.flatten_cons, decodeFrom_encodeChar hfirst,
      ih others hothers (Option.map_eq_some_iff.mpr ⟨others, hothers, rfl⟩)]

end Utf8

end AllInOneBackup
