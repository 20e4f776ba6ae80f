import AllInOneBackup.Data.Bytes

/-! Netstrings: byte strings behind their lengths in decimal. A list that is written so can be
read back from the front, also where a colon follows it. -/

namespace AllInOneBackup.Netstring

/-- The ASCII text as bytes. -/
def ascii (s : List Char) : Bytes := s.map fun c => UInt8.ofNat c.toNat

def colon : UInt8 := 58

def comma : UInt8 := 44

/-! ### Numbers -/

def decimal (n : ℕ) : Bytes := ascii (Nat.toDigits 10 n)

theorem decimal_ne_nil (n : ℕ) : decimal n ≠ [] := by
  rw [decimal, ascii, ne_eq, List.map_eq_nil_iff]
  exact Nat.toDigits_ne_nil

/-- A digit is one of ten characters. -/
theorem toNat_of_mem_toDigits {n : ℕ} {c : Char} (hc : c ∈ Nat.toDigits 10 n) :
    48 ≤ c.toNat ∧ c.toNat ≤ 57 := by
  have h := Nat.isDigit_of_mem_toDigits (by decide) le_rfl hc
  simp only [Char.isDigit, Bool.and_eq_true, decide_eq_true_eq] at h
  exact ⟨h.1, h.2⟩

theorem bounds_of_mem_decimal {n : ℕ} {b : UInt8} (hb : b ∈ decimal n) :
    48 ≤ b.toNat ∧ b.toNat ≤ 57 := by
  obtain ⟨c, hc, rfl⟩ := List.mem_map.mp hb
  have h := toNat_of_mem_toDigits hc
  simp only [UInt8.toNat_ofNat']
  omega

theorem colon_not_mem_decimal (n : ℕ) : colon ∉ decimal n := by
  intro h
  have hbounds := bounds_of_mem_decimal h
  have hcolon : colon.toNat = 58 := rfl
  omega

/-- The characters of the digits are read off the bytes. -/
theorem map_decimal (n : ℕ) :
    (decimal n).map (fun b => Char.ofNat b.toNat) = Nat.toDigits 10 n := by
  rw [decimal, ascii, List.map_map]
  refine (List.map_congr_left fun c hc => ?_).trans (List.map_id _)
  have h := toNat_of_mem_toDigits hc
  have hbyte : (UInt8.ofNat c.toNat).toNat = c.toNat := by
    simp only [UInt8.toNat_ofNat']
    omega
  rw [Function.comp_apply, hbyte, Char.ofNat_toNat, id_eq]

theorem decimal_injective : Function.Injective decimal := by
  intro m n h
  have hchars : Nat.toDigits 10 m = Nat.toDigits 10 n := by
    rw [← map_decimal, ← map_decimal, h]
  have hparsed := congrArg (fun digits => Nat.ofDigitChars 10 digits 0) hchars
  simpa using hparsed

/-- A number below `10 ^ k` has at most `k` digits. -/
theorem length_decimal_le {n k : ℕ} (hk : 0 < k) (h : n < 10 ^ k) : (decimal n).length ≤ k := by
  rw [decimal, ascii, List.length_map]
  exact (Nat.length_toDigits_le_iff (by decide) hk).mpr h

/-! ### Lists -/

/-- Each item behind its length and a colon, with a comma after it. -/
def encode : List Bytes → Bytes
  | [] => []
  | item :: items => decimal item.length ++ colon :: (item ++ comma :: encode items)

/-- Two texts that are cut at their first colon. -/
theorem eq_of_append_colon {a b r s : Bytes} (ha : colon ∉ a) (hb : colon ∉ b)
    (h : a ++ colon :: r = b ++ colon :: s) : a = b ∧ r = s := by
  induction a generalizing b with
  | nil =>
    cases b with
    | nil => exact ⟨rfl, (List.cons.inj h).2⟩
    | cons y b => exact absurd ((List.cons.inj h).1 ▸ List.mem_cons_self) hb
  | cons x a ih =>
    cases b with
    | nil => exact absurd ((List.cons.inj h).1 ▸ List.mem_cons_self) ha
    | cons y b =>
      obtain ⟨rfl, htail⟩ := List.cons.inj h
      obtain ⟨rfl, hrest⟩ := ih (fun hmem => ha (List.mem_cons_of_mem _ hmem))
        (fun hmem => hb (List.mem_cons_of_mem _ hmem)) htail
      exact ⟨rfl, hrest⟩

/-- Two texts that are cut at their last colon. -/
theorem eq_of_append_colon_last {a b r s : Bytes} (hr : colon ∉ r) (hs : colon ∉ s)
    (h : a ++ colon :: r = b ++ colon :: s) : a = b ∧ r = s := by
  have hrev : r.reverse ++ colon :: a.reverse = s.reverse ++ colon :: b.reverse := by
    simpa using congrArg List.reverse h
  obtain ⟨htails, hheads⟩ := eq_of_append_colon (by simpa using hr) (by simpa using hs) hrev
  exact ⟨List.reverse_injective hheads, List.reverse_injective htails⟩

/-- Two texts with a colon that are equal are cut at the same colon, or one is cut at an earlier
one. -/
theorem cut_cases {a b r s : Bytes} (h : a ++ colon :: r = b ++ colon :: s) :
    (a = b ∧ r = s) ∨ (∃ t, b = a ++ colon :: t ∧ r = t ++ colon :: s) ∨
      ∃ t, a = b ++ colon :: t ∧ s = t ++ colon :: r := by
  obtain ⟨t, hb, hr⟩ | ⟨t, ha, hs⟩ := List.append_eq_append_iff.mp h
  · cases t with
    | nil => exact .inl ⟨by simpa using hb.symm, (List.cons.inj hr).2⟩
    | cons x t =>
      obtain ⟨rfl, htail⟩ := List.cons.inj hr
      exact .inr (.inl ⟨t, hb, htail⟩)
  · cases t with
    | nil => exact .inl ⟨by simpa using ha, (List.cons.inj hs).2.symm⟩
    | cons x t =>
      obtain ⟨rfl, htail⟩ := List.cons.inj hs
      exact .inr (.inr ⟨t, ha, htail⟩)

/-- No list of items begins with a colon. -/
theorem encode_cons_ne_colon (item : Bytes) (items : List Bytes) (r s : Bytes) :
    encode (item :: items) ++ r ≠ colon :: s := by
  intro h
  obtain ⟨d, ds, hd⟩ := List.exists_cons_of_ne_nil (decimal_ne_nil item.length)
  rw [encode, hd] at h
  have hcolon : d = colon := (List.cons.inj h).1
  exact colon_not_mem_decimal item.length (hd ▸ hcolon ▸ List.mem_cons_self)

/-- The items are read back, and so is what follows behind a colon. -/
theorem encode_append_colon {xs ys : List Bytes} {r s : Bytes}
    (h : encode xs ++ colon :: r = encode ys ++ colon :: s) : xs = ys ∧ r = s := by
  induction xs generalizing ys with
  | nil =>
    cases ys with
    | nil => exact ⟨rfl, (List.cons.inj h).2⟩
    | cons y ys => exact absurd h.symm (encode_cons_ne_colon y ys _ _)
  | cons x xs ih =>
    cases ys with
    | nil => exact absurd h (encode_cons_ne_colon x xs _ _)
    | cons y ys =>
      simp only [encode, List.append_assoc, List.cons_append] at h
      obtain ⟨hlen, hitems⟩ := eq_of_append_colon (colon_not_mem_decimal _)
        (colon_not_mem_decimal _) h
      obtain ⟨rfl, hrest⟩ := List.append_inj hitems (decimal_injective hlen)
      obtain ⟨rfl, htail⟩ := ih (List.cons.inj hrest).2
      exact ⟨rfl, htail⟩

theorem encode_injective : Function.Injective encode := by
  intro xs ys h
  exact (encode_append_colon (r := []) (s := []) (by rw [h])).1

/-- What is written ends with a comma. -/
theorem getLast?_encode {xs : List Bytes} (h : xs ≠ []) : (encode xs).getLast? = some comma := by
  induction xs with
  | nil => exact absurd rfl h
  | cons x xs ih =>
    cases xs with
    | nil => simp [encode, List.getLast?_cons]
    | cons y ys =>
      have hlast := ih (List.cons_ne_nil y ys)
      rw [encode, List.getLast?_append, List.getLast?_cons, List.getLast?_append,
        List.getLast?_cons, hlast]
      rfl

end AllInOneBackup.Netstring
