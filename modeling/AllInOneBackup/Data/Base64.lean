import AllInOneBackup.Data.Bytes

/-! Base64 with the URL-safe alphabet, as Python's `base64` writes and reads it. The reader skips
characters that are no digits and stops at a complete padding; on what the writer wrote it gives
the bytes back. -/

namespace AllInOneBackup.Base64

/-! ### Digits -/

/-- The digit of a number below 64. -/
def digit (n : ℕ) : Char :=
  if n < 26 then Char.ofNat (65 + n)
  else if n < 52 then Char.ofNat (71 + n)
  else if n < 62 then Char.ofNat (n - 4)
  else if n = 62 then '-'
  else '_'

/-- The number of a digit, of the URL-safe or of the standard alphabet. -/
def value (c : Char) : Option ℕ :=
  if 'A' ≤ c ∧ c ≤ 'Z' then some (c.toNat - 65)
  else if 'a' ≤ c ∧ c ≤ 'z' then some (c.toNat - 71)
  else if '0' ≤ c ∧ c ≤ '9' then some (c.toNat + 4)
  else if c = '-' ∨ c = '+' then some 62
  else if c = '_' ∨ c = '/' then some 63
  else none

theorem value_digit : ∀ n < 64, value (digit n) = some n := by decide

theorem digit_ne_pad : ∀ n < 64, digit n ≠ '=' := by decide

theorem isAscii_digit : ∀ n < 64, (digit n).toNat < 128 := by decide

/-! ### Writing and reading -/

def digits : Bytes → List Char
  | a :: b :: c :: s =>
    digit (a.toNat / 4) :: digit (a.toNat % 4 * 16 + b.toNat / 16) ::
      digit (b.toNat % 16 * 4 + c.toNat / 64) :: digit (c.toNat % 64) :: digits s
  | [a, b] => [digit (a.toNat / 4), digit (a.toNat % 4 * 16 + b.toNat / 16), digit (b.toNat % 16 * 4)]
  | [a] => [digit (a.toNat / 4), digit (a.toNat % 4 * 16)]
  | [] => []

/-- How many `=` follow the digits of `n` bytes. -/
def padding (n : ℕ) : ℕ := (3 - n % 3) % 3

/-- `base64.urlsafe_b64encode(s).decode()`. -/
def urlsafeB64encode (s : Bytes) : List Char := digits s ++ List.replicate (padding s.length) '='

/-- The loop of `binascii.a2b_base64`: how many bytes are out, the place in the group of four
digits, what is left of the last digit, and the padding characters seen in a row. -/
def a2bBase64 (out quadPos leftchar pads : ℕ) : List Char → Except String Bytes
  | [] =>
    if quadPos = 0 then .ok []
    else if quadPos = 1 then .error (s!"Invalid base64-encoded string: number of data characters "
      ++ s!"({out / 3 * 4 + 1}) cannot be 1 more than a multiple of 4")
    else .error "Incorrect padding"
  | c :: cs =>
    if c = '=' then
      if quadPos ≥ 2 ∧ quadPos + (pads + 1) ≥ 4 then .ok []
      else a2bBase64 out quadPos leftchar (if quadPos ≥ 2 then pads + 1 else pads) cs
    else match value c, quadPos with
      | none, _ => a2bBase64 out quadPos leftchar pads cs
      | some v, 0 => a2bBase64 out 1 v 0 cs
      | some v, 1 =>
        (a2bBase64 (out + 1) 2 (v % 16) 0 cs).map (UInt8.ofNat (leftchar * 4 + v / 16) :: ·)
      | some v, 2 =>
        (a2bBase64 (out + 1) 3 (v % 4) 0 cs).map (UInt8.ofNat (leftchar * 16 + v / 4) :: ·)
      | some v, _ => (a2bBase64 (out + 1) 0 0 0 cs).map (UInt8.ofNat (leftchar * 64 + v) :: ·)

/-- `base64.urlsafe_b64decode(s)`. -/
def urlsafeB64decode (s : List Char) : Except String Bytes :=
  if s.all fun c => c.toNat < 128 then a2bBase64 0 0 0 0 s
  else .error "string argument should contain only ASCII characters"

/-! ### What was written is read -/

section Step

variable {v : ℕ} (hv : v < 64) (out leftchar pads : ℕ) (cs : List Char)
include hv

/-- A digit is read according to its place in the group. -/
theorem a2bBase64_digit (quadPos : ℕ) : a2bBase64 out quadPos leftchar pads (digit v :: cs) =
    match quadPos with
    | 0 => a2bBase64 out 1 v 0 cs
    | 1 => (a2bBase64 (out + 1) 2 (v % 16) 0 cs).map (UInt8.ofNat (leftchar * 4 + v / 16) :: ·)
    | 2 => (a2bBase64 (out + 1) 3 (v % 4) 0 cs).map (UInt8.ofNat (leftchar * 16 + v / 4) :: ·)
    | _ => (a2bBase64 (out + 1) 0 0 0 cs).map (UInt8.ofNat (leftchar * 64 + v) :: ·) := by
  rcases quadPos with _ | _ | _ | n <;> simp [a2bBase64, digit_ne_pad v hv, value_digit v hv]

theorem a2bBase64_digit_zero :
    a2bBase64 out 0 leftchar pads (digit v :: cs) = a2bBase64 out 1 v 0 cs :=
  a2bBase64_digit hv out leftchar pads cs 0

theorem a2bBase64_digit_one : a2bBase64 out 1 leftchar pads (digit v :: cs) =
    (a2bBase64 (out + 1) 2 (v % 16) 0 cs).map (UInt8.ofNat (leftchar * 4 + v / 16) :: ·) :=
  a2bBase64_digit hv out leftchar pads cs 1

theorem a2bBase64_digit_two : a2bBase64 out 2 leftchar pads (digit v :: cs) =
    (a2bBase64 (out + 1) 3 (v % 4) 0 cs).map (UInt8.ofNat (leftchar * 16 + v / 4) :: ·) :=
  a2bBase64_digit hv out leftchar pads cs 2

theorem a2bBase64_digit_three : a2bBase64 out 3 leftchar pads (digit v :: cs) =
    (a2bBase64 (out + 1) 0 0 0 cs).map (UInt8.ofNat (leftchar * 64 + v) :: ·) :=
  a2bBase64_digit hv out leftchar pads cs 3

end Step

theorem a2bBase64_digits (out pads : ℕ) (s : Bytes) :
    a2bBase64 out 0 0 pads (digits s ++ List.replicate (padding s.length) '=') = .ok s := by
  have hbyte (x : UInt8) {n : ℕ} (h : n = x.toNat) : UInt8.ofNat n = x := by
    rw [h, UInt8.ofNat_toNat]
  fun_induction digits s generalizing out pads with
  | case1 a b c s ih =>
    have ha := a.toNat_lt
    have hb := b.toNat_lt
    have hc := c.toNat_lt
    have hpad : padding (a :: b :: c :: s).length = padding s.length := by
      simp only [padding, List.length_cons]
      omega
    rw [hpad, List.cons_append, a2bBase64_digit_zero (by omega), List.cons_append,
      a2bBase64_digit_one (by omega), List.cons_append, a2bBase64_digit_two (by omega),
      List.cons_append, a2bBase64_digit_three (by omega), ih]
    simp only [Except.map]
    rw [hbyte a (by omega), hbyte b (by omega), hbyte c (by omega)]
  | case2 a b =>
    have ha := a.toNat_lt
    have hb := b.toNat_lt
    rw [List.cons_append, a2bBase64_digit_zero (by omega), List.cons_append,
      a2bBase64_digit_one (by omega), List.cons_append, a2bBase64_digit_two (by omega)]
    simp only [padding, List.nil_append, List.length_cons, List.length_nil]
    rw [hbyte a (by omega), hbyte b (by omega)]
    rfl
  | case3 a =>
    have ha := a.toNat_lt
    rw [List.cons_append, a2bBase64_digit_zero (by omega), List.cons_append,
      a2bBase64_digit_one (by omega)]
    simp only [padding, List.nil_append, List.length_cons, List.length_nil]
    rw [hbyte a (by omega)]
    rfl
  | case4 => rfl

theorem forall_mem_digits {P : Char → Prop} (h : ∀ n < 64, P (digit n)) (s : Bytes) :
    ∀ c ∈ digits s, P c := by
  fun_induction digits s with
  | case1 a b c s ih =>
    have ha := a.toNat_lt
    have hb := b.toNat_lt
    have hc := c.toNat_lt
    simp only [List.forall_mem_cons]
    exact ⟨h _ (by omega), h _ (by omega), h _ (by omega), h _ (by omega), ih⟩
  | case2 a b =>
    have ha := a.toNat_lt
    have hb := b.toNat_lt
    simp only [List.forall_mem_cons]
    exact ⟨h _ (by omega), h _ (by omega), h _ (by omega), nofun⟩
  | case3 a =>
    have ha := a.toNat_lt
    simp only [List.forall_mem_cons]
    exact ⟨h _ (by omega), h _ (by omega), nofun⟩
  | case4 => exact nofun

theorem length_digits_mod (s : Bytes) : padding s.length = (4 - (digits s).length % 4) % 4 := by
  fun_induction digits s with
  | case1 a b c s ih =>
    simp only [padding, List.length_cons] at ih ⊢
    omega
  | case2 a b => rfl
  | case3 a => rfl
  | case4 => rfl

/-- `base64.urlsafe_b64decode(base64.urlsafe_b64encode(s))`. -/
theorem urlsafeB64decode_encode (s : Bytes) : urlsafeB64decode (urlsafeB64encode s) = .ok s := by
  have hascii : (urlsafeB64encode s).all (fun c => c.toNat < 128) = true := by
    rw [urlsafeB64encode, List.all_append, Bool.and_eq_true, List.all_eq_true, List.all_eq_true]
    refine ⟨forall_mem_digits (by simpa using isAscii_digit) s, fun c hc => ?_⟩
    rw [List.eq_of_mem_replicate hc]
    decide
  rw [urlsafeB64decode, if_pos hascii, urlsafeB64encode, a2bBase64_digits]

end AllInOneBackup.Base64
