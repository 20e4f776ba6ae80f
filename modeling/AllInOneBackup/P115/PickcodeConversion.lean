import AllInOneBackup.P115.PickcodeGrammar

/-! Pickcodes under another prefix. The id and the stable point are read off a pickcode and written
again, encrypted with the table of the new prefix; nothing else is in a pickcode, as long as the id
in it does not begin with a zero. -/

namespace AllInOneBackup.P115.Pickcode

/-- What `pickcode_to_id` takes for the prefix. -/
def prefixOf (pickcode : Str) : Option Prefix :=
  Prefix.ofText (Prefix.files ++ Prefix.folders)
    (pickcode.take (if pickcode.head? = some 'f' then 2 else 1))

/-- The middle part, decrypted. -/
def plainMiddle (pickcode : Str) : Option Str :=
  (prefixOf pickcode).map fun p => translate p.transtabRev
    (pickcode.extract (if pickcode.head? = some 'f' then 2 else 1) (pickcode.length - 4))

/-- `id_to_pickcode(pickcode_to_id(pickcode), pickcode, pre)`. -/
def convert (pickcode : Str) (pre : Option Prefix) : Option Str :=
  (pickcodeToId pickcode).bind fun id => idToPickcode id pickcode pre

/-! ### Base 36, read and written -/

theorem exists_digits {s : Str} (hs : InAlphabet s) : ∃ ds : List ℕ, (∀ d ∈ ds, d < 36) ∧
    (ds.map fun r => alphabet.getD r '0').reverse = s := by
  have hdigit : ∀ c ∈ alphabet, ∃ r < 36, alphabet.getD r '0' = c := by
    intro c hc
    obtain ⟨r, hr, rfl⟩ := List.getElem_of_mem hc
    exact ⟨r, hr, (List.getElem_eq_getD '0').symm⟩
  induction s with
  | nil => exact ⟨[], by simp, rfl⟩
  | cons c s ih =>
    obtain ⟨ds, hds, rfl⟩ := ih fun d hd => hs d (List.mem_cons_of_mem _ hd)
    obtain ⟨r, hr, rfl⟩ := hdigit c (hs c List.mem_cons_self)
    refine ⟨ds ++ [r], fun d hd => ?_, by simp⟩
    obtain hd | hd := List.mem_append.mp hd
    · exact hds d hd
    · rw [List.mem_singleton.mp hd]
      exact hr

/-- A number without a leading zero is written as it was read. -/
theorem b36encode_b36decode {s : Str} (hs : InAlphabet s) (hne : s ≠ [])
    (hlead : s.head? ≠ some '0') : ∃ n, 0 < n ∧ b36decode s = some n ∧ b36encode n = s := by
  obtain ⟨ds, hds, rfl⟩ := exists_digits hs
  have hne' : ds ≠ [] := by simpa using hne
  have hlast : ∀ h : ds ≠ [], ds.getLast h ≠ 0 := by
    intro h hzero
    rw [List.head?_reverse, List.getLast?_map, List.getLast?_eq_some_getLast h, hzero] at hlead
    exact hlead (by rw [alphabet_eq]; rfl)
  have hdigits := Nat.digits_ofDigits 36 (by decide) ds hds hlast
  have hpos : 0 < Nat.ofDigits 36 ds := by
    rw [Nat.pos_iff_ne_zero]
    intro hzero
    rw [hzero, Nat.digits_zero] at hdigits
    exact hne' hdigits.symm
  refine ⟨_, hpos, b36decode_reverse hds hne', ?_⟩
  rw [b36encode_of_pos hpos, hdigits]

/-! ### Conversions -/

/-- Written with any prefix, an id and a stable point are written with any other. -/
theorem convert_code (p : Prefix) {n : ℕ} (hn : 0 < n) {point : Str} (hpoint : Point point)
    (pre : Option Prefix) : convert (code p n point) pre = some (code (pre.getD p) n point) := by
  have hne : code p n point ≠ [] := by cases p <;> simp [code, Prefix.text]
  have hvalid := isValidPickcode_code p hn hpoint
  obtain ⟨q, last, hlast, hlen, hs, hlong, hq⟩ := exists_of_isValidPickcode hne hvalid
  obtain ⟨hresolve, hget⟩ := resolve_of_ofText hlong hlast hq pre
  have hpq : q = p := by
    obtain ⟨c, cipher, last', hcipher, hsuffix, -⟩ := exists_code p hn hpoint
    rw [drop_code p hpoint, hsuffix] at hlast
    have hshow := p.firstSuffixToPrefix_firstSuffix
    rw [(List.cons.inj hlast).1, q.firstSuffixToPrefix_firstSuffix] at hshow
    exact Option.some.inj hshow
  subst hpq
  rw [getStablePoint_code q hn hpoint] at hget
  rw [convert, pickcodeToId_code q hn hpoint, Option.bind_some,
    idToPickcode_locked hn hresolve hlast hs, ← Option.some.inj hget]

theorem head_of_parts {p : Prefix} {middle : Str} {c : Char} {last s : Str}
    (h : Parts p middle c last s) : (if s.head? = some 'f' then 2 else 1) = p.text.length := by
  rw [h.eq]
  cases p <;> rfl

theorem prefixOf_of_parts {p : Prefix} {middle : Str} {c : Char} {last s : Str}
    (h : Parts p middle c last s) : prefixOf s = some p := by
  rw [prefixOf, head_of_parts h, h.eq, List.take_left]
  exact p.ofText_text

theorem plainMiddle_of_parts {p : Prefix} {middle : Str} {c : Char} {last s : Str}
    (h : Parts p middle c last s) : plainMiddle s = some (translate p.transtabRev middle) := by
  have hcut : s.extract p.text.length (s.length - 4) = middle := by
    rw [List.extract_eq_take_drop, h.eq, List.drop_left, List.take_left']
    simp [h.length]
    omega
  rw [plainMiddle, prefixOf_of_parts h, head_of_parts h, hcut]
  rfl

/-- A valid pickcode is an id and a stable point, written with its prefix. -/
theorem exists_code_of_isValidPickcode {pickcode middle : Str} {p : Prefix} (hne : pickcode ≠ [])
    (hvalid : isValidPickcode pickcode = some true) (hp : prefixOf pickcode = some p)
    (hmiddle : plainMiddle pickcode = some middle) (hlead : middle.head? ≠ some '0') :
    ∃ n point, 0 < n ∧ Point point ∧ pickcode = code p n point := by
  obtain ⟨q, cipher, c, last, h⟩ := exists_parts hne (by simp [hvalid])
  obtain rfl : q = p := Option.some.inj ((prefixOf_of_parts h).symm.trans hp)
  obtain rfl : translate q.transtabRev cipher = middle :=
    Option.some.inj ((plainMiddle_of_parts h).symm.trans hmiddle)
  have hin : InAlphabet (cipher ++ c :: last) := fun x hx => h.inAlphabet x (by
    rw [h.eq]
    exact List.mem_append_right _ hx)
  have hcipher : InAlphabet cipher := fun x hx => hin x (List.mem_append_left _ hx)
  have hsuffix : InAlphabet (c :: last) := fun x hx => hin x (List.mem_append_right _ hx)
  have hc : c = q.firstSuffix := by
    rw [isValidPickcode_of_parts h] at hvalid
    obtain ⟨r, hr, hqr⟩ := Option.map_eq_some_iff.mp hvalid
    obtain rfl : q = r := by simpa using hqr
    exact (firstSuffix_of_firstSuffixToPrefix hr).symm
  obtain ⟨n, hn, -, hencode⟩ := b36encode_b36decode (inAlphabet_translate_rev q hcipher)
    (by simpa [translate] using h.middle) hlead
  subst hc
  refine ⟨n, _, hn, point_translate_rev q h.length fun x hx =>
    hsuffix x (List.mem_cons_of_mem _ hx), ?_⟩
  rw [code, hencode, translate_translate_rev q hcipher, translate_translate_rev q hsuffix]
  exact h.eq

/-- Written with its own prefix, a pickcode comes back, and it comes back from any other. -/
theorem convert_roundTrip {pickcode middle : Str} {p : Prefix} (hne : pickcode ≠ [])
    (hvalid : isValidPickcode pickcode = some true) (hp : prefixOf pickcode = some p)
    (hmiddle : plainMiddle pickcode = some middle) (hlead : middle.head? ≠ some '0') :
    convert pickcode none = some pickcode ∧
      ∀ q, ((convert pickcode (some q)).bind fun other => convert other (some p)) =
        some pickcode := by
  obtain ⟨n, point, hn, hpoint, rfl⟩ := exists_code_of_isValidPickcode hne hvalid hp hmiddle hlead
  constructor
  · exact convert_code p hn hpoint none
  · intro q
    rw [convert_code p hn hpoint, Option.bind_some, convert_code _ hn hpoint]
    rfl

/-- The pickcode of a folder, as that of a file and back. -/
theorem convert_roundTrip_folder : convert "fab4hhh".toList none = some "fab4hhh".toList ∧
    ∀ q, ((convert "fab4hhh".toList (some q)).bind fun other => convert other (some .fa)) =
      some "fab4hhh".toList :=
  @convert_roundTrip _ ['n'] _ (by decide) (by decide +kernel) (by decide +kernel)
    (by decide +kernel) (by decide)

end AllInOneBackup.P115.Pickcode
