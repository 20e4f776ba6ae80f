import Mathlib.Data.List.TakeWhile
import Mathlib.Data.List.Zip
import Mathlib.Data.Nat.Digits.Defs
import Mathlib.Tactic.Common

/-! Pickcodes. A pickcode is a prefix, the id in base 36 and a suffix of four characters, the
last two in the substitution that belongs to the prefix; the suffix is the user's stable point,
whose first character is `0`, so its first character tells the prefix. A `KeyError` or a
`ValueError` is `none`. -/

namespace AllInOneBackup.P115.Pickcode

/-! ### Model -/

abbrev Str := List Char

def alphabet : Str := "0123456789abcdefghijklmnopqrstuvwxyz".toList

/-- The keys of `PREFIX_TO_TRANSTAB`. -/
inductive Prefix
  | a | b | c | d | e | fa | fb | fc | fd | fe
  deriving DecidableEq

namespace Prefix

def text : Prefix → Str
  | a => ['a']
  | b => ['b']
  | c => ['c']
  | d => ['d']
  | e => ['e']
  | fa => ['f', 'a']
  | fb => ['f', 'b']
  | fc => ['f', 'c']
  | fd => ['f', 'd']
  | fe => ['f', 'e']

/-- What `str.maketrans` maps to the alphabet. -/
def plain : Prefix → String
  | a => "fuln1ytpj3smg8d5a094qh7cxkbi62zvewro"
  | b => "sk721n9a0emlfpcrzbqdw3gjh6ty5xui48vo"
  | c => "ywcz3hite6f1j0guoakvdb2ns7p8qr9ml5x4"
  | d => "rq2vl5o7wsken9u8tp4jg3zbyc6xmhifd01a"
  | e => "ljm9eqbcfhw7ktv3x1dgp5ua8y6s4znr2io0"
  | fa => "fumk0ytpj3sng8d5a194qh7cxlbi62zvewro"
  | fb => "sk732o9a1enmfpcrzbqdw4gjh6ty5xui08vl"
  | fc => "ywcz6hite9f4j3gup2kvdb5osal0qr1nm8x7"
  | fd => "on6vl0r2wpkeq9u3ts8jg7zbyc1xmhifd45a"
  | fe => "ljm0es2cfhwakqv6x4dgp8r1by9u7znt5io3"

/-- `PREFIX_TO_TRANSTAB`. -/
def transtab (p : Prefix) : List (Char × Char) := p.plain.toList.zip alphabet

/-- `PREFIX_TO_TRANSTAB_REV`. -/
def transtabRev (p : Prefix) : List (Char × Char) := p.transtab.map Prod.swap

def files : List Prefix := [a, b, c, d, e]

def folders : List Prefix := [fa, fb, fc, fd, fe]

/-- The prefix among `ps` that is written `s`. -/
def ofText (ps : List Prefix) (s : Str) : Option Prefix := ps.find? fun p => p.text = s

end Prefix

/-- `s.translate(tab)`. -/
def translate (tab : List (Char × Char)) (s : Str) : Str := s.map fun c => (tab.lookup c).getD c

/-- `PREFIX_TO_FIRST_SUFFIX`. -/
def Prefix.firstSuffix (p : Prefix) : Char := (p.transtab.lookup '0').getD '0'

/-- `FIRST_SUFFIX_TO_PREFIX`. -/
def firstSuffixToPrefix (c : Char) : Option Prefix :=
  (Prefix.files ++ Prefix.folders).find? fun p => p.firstSuffix = c

def b36encode (n : ℤ) : Str :=
  let chars (n : ℕ) : Str := if n < 36 then alphabet.extract n (n + 1)
    else ((Nat.digits 36 n).map fun r => alphabet.getD r '0').reverse
  if n < 0 then '-' :: chars (-n).toNat else chars n.toNat

/-- The value of a digit of `int(s, 36)`. -/
def digitValue (c : Char) : Option ℕ :=
  if '0' ≤ c ∧ c ≤ '9' then some (c.toNat - '0'.toNat)
  else if 'a' ≤ c ∧ c ≤ 'z' then some (c.toNat - 'a'.toNat + 10)
  else if 'A' ≤ c ∧ c ≤ 'Z' then some (c.toNat - 'A'.toNat + 10)
  else none

/-- `int(s, 36)` for a string of digits. -/
def b36decode (s : Str) : Option ℕ :=
  if s = [] then none else s.foldlM (fun n c => (digitValue c).map (36 * n + ·)) 0

def getStablePoint (pickcode : Str) : Option Str :=
  let len := pickcode.length
  if len < 4 then some (List.replicate (4 - len) '0' ++ pickcode)
  else
    let last := pickcode.drop (len - 4)
    match if 6 ≤ len then Prefix.ofText Prefix.folders (pickcode.take 2) else none with
    | some p => some (translate p.transtabRev last)
    | none =>
      match if 5 ≤ len then Prefix.ofText Prefix.files (pickcode.take 1) else none with
      | some p => some (translate p.transtabRev last)
      | none =>
        if last.head? = some '0' then some last
        else (last.head?.bind firstSuffixToPrefix).map fun p => translate p.transtabRev last

/-- `s.strip(chars)`. -/
def strip (chars s : Str) : Str :=
  ((s.dropWhile (· ∈ chars)).reverse.dropWhile (· ∈ chars)).reverse

def isValidPickcode (pickcode : Str) : Option Bool :=
  let len := pickcode.length
  if pickcode = [] then some true
  else if strip alphabet pickcode ≠ [] then some false
  else if pickcode.head? = some 'f' ∧ len < 7 ∨ len < 6 then some false
  else
    let prefix' := if pickcode.head? = some 'f' then pickcode.take 2 else pickcode.take 1
    match Prefix.ofText (Prefix.files ++ Prefix.folders) prefix' with
    | none => some false
    | some p => ((pickcode.drop (len - 4)).head?.bind firstSuffixToPrefix).map fun q => p = q

def pickcodeToId (pickcode : Str) : Option ℕ :=
  if pickcode = [] then some 0
  else
    let size := if pickcode.head? = some 'f' then 2 else 1
    let cipher := pickcode.extract size (pickcode.length - 4)
    (Prefix.ofText (Prefix.files ++ Prefix.folders) (pickcode.take size)).bind fun p =>
      b36decode (translate p.transtabRev cipher)

/-- The branches of `id_to_pickcode` on `stable_point`: `prefix_`, `is_stable_point` and the
stable point. -/
def resolve (stablePoint : Str) (pre : Option Prefix) : Option (Prefix × Bool × Str) :=
  let len := stablePoint.length
  let prefix' := pre.getD .a
  if len < 4 then some (prefix', true, List.replicate (4 - len) '0' ++ stablePoint)
  else
    match if 6 ≤ len then Prefix.ofText Prefix.folders (stablePoint.take 2) else none with
    | some p => some (p, false, stablePoint)
    | none =>
      match if 5 ≤ len then Prefix.ofText Prefix.files (stablePoint.take 1) else none with
      | some p => some (p, false, stablePoint)
      | none =>
        let first := (stablePoint.drop (len - 4)).head?
        if first ≠ some '0' then
          (first.bind firstSuffixToPrefix).map fun p => (p, false, stablePoint)
        else some (prefix', true, stablePoint)

/-- `id_to_pickcode`; no prefix is the empty string of the source. -/
def idToPickcode (id : ℤ) (stablePoint : Str) (pre : Option Prefix) : Option Str :=
  if id = 0 then some []
  else if id < 0 then none
  else (resolve stablePoint pre).map fun (prefix', isStablePoint, stablePoint') =>
    let stablePoint' := if stablePoint.length > 4 then stablePoint'.drop (stablePoint'.length - 4)
      else stablePoint'
    let transtab := (pre.getD prefix').transtab
    let (prefix', suffix) :=
      if isStablePoint then (prefix', translate transtab stablePoint')
      else if pre = none ∨ pre = some prefix' then (pre.getD prefix', stablePoint')
      else (pre.getD prefix', translate transtab (translate prefix'.transtabRev stablePoint'))
    prefix'.text ++ translate transtab (b36encode id) ++ suffix

example : idToPickcode 1234567 "0000".toList (some .a) = some "akc28hhhh".toList := by decide +kernel

/-! ### The tables -/

/-- Every character of `s` is one of the alphabet. -/
def InAlphabet (s : Str) : Prop := ∀ c ∈ s, c ∈ alphabet

theorem alphabet_eq : alphabet = ['0', '1', '2', '3', '4', '5', '6', '7', '8', '9', 'a', 'b', 'c',
    'd', 'e', 'f', 'g', 'h', 'i', 'j', 'k', 'l', 'm', 'n', 'o', 'p', 'q', 'r', 's', 't', 'u', 'v',
    'w', 'x', 'y', 'z'] := String.toList_ofList

theorem nodup_alphabet : alphabet.Nodup := by
  rw [alphabet_eq]
  decide +kernel

theorem zero_mem_alphabet : '0' ∈ alphabet := by
  rw [alphabet_eq]
  decide

/-- A table between two lists without repetitions is undone by the table the other way round. -/
theorem lookup_zip_lookup {xs ys : Str} (hx : xs.Nodup) (hy : ys.Nodup)
    (hlen : xs.length = ys.length) {c : Char} (hc : c ∈ xs) :
    ∃ d ∈ ys, (xs.zip ys).lookup c = some d ∧ (ys.zip xs).lookup d = some c := by
  induction xs generalizing ys with
  | nil => cases hc
  | cons x xs ih =>
    cases ys with
    | nil => cases hlen
    | cons y ys =>
      obtain ⟨hxs, hx⟩ := List.nodup_cons.mp hx
      obtain ⟨hys, hy⟩ := List.nodup_cons.mp hy
      obtain rfl | hc := List.mem_cons.mp hc
      · exact ⟨y, List.mem_cons_self, by simp, by simp⟩
      · obtain ⟨d, hd, hcd, hdc⟩ := ih hx hy (Nat.succ.inj hlen) hc
        have hcx : c ≠ x := fun h => hxs (h ▸ hc)
        have hdy : d ≠ y := fun h => hys (h ▸ hd)
        refine ⟨d, List.mem_cons_of_mem _ hd, ?_, ?_⟩
        · rw [List.zip_cons_cons, List.lookup_cons, beq_false_of_ne hcx]
          exact hcd
        · rw [List.zip_cons_cons, List.lookup_cons, beq_false_of_ne hdy]
          exact hdc

namespace Prefix

theorem perm_of_ofList {s : String} {cs xs : Str} (h : s = String.ofList cs) (hp : cs.Perm xs) :
    s.toList.Perm xs := by
  rw [h, String.toList_ofList]
  exact hp

theorem perm_plain (p : Prefix) : p.plain.toList.Perm alphabet := by
  rw [alphabet_eq]
  cases p <;> exact perm_of_ofList rfl (by decide +kernel)

theorem transtabRev_eq (p : Prefix) : p.transtabRev = alphabet.zip p.plain.toList :=
  List.zip_swap _ _

theorem rev_lookup_lookup (p : Prefix) : ∀ c ∈ alphabet,
    (p.transtabRev.lookup ((p.transtab.lookup c).getD c)).getD ((p.transtab.lookup c).getD c) = c ∧
      (p.transtab.lookup c).getD c ∈ alphabet := by
  intro c hc
  have hperm := p.perm_plain
  obtain ⟨d, hd, hcd, hdc⟩ := lookup_zip_lookup (hperm.nodup_iff.mpr nodup_alphabet)
    nodup_alphabet hperm.length_eq (hperm.mem_iff.mpr hc)
  rw [transtab, hcd, Option.getD_some, transtabRev_eq, hdc]
  exact ⟨rfl, hd⟩

theorem lookup_rev_lookup (p : Prefix) : ∀ c ∈ alphabet,
    (p.transtab.lookup ((p.transtabRev.lookup c).getD c)).getD ((p.transtabRev.lookup c).getD c) =
      c ∧ (p.transtabRev.lookup c).getD c ∈ alphabet := by
  intro c hc
  have hperm := p.perm_plain
  obtain ⟨d, hd, hcd, hdc⟩ := lookup_zip_lookup nodup_alphabet
    (hperm.nodup_iff.mpr nodup_alphabet) hperm.length_eq.symm hc
  rw [transtabRev_eq, hcd, Option.getD_some, transtab, hdc]
  exact ⟨rfl, hperm.mem_iff.mp hd⟩

theorem ofText_text (p : Prefix) : ofText (files ++ folders) p.text = some p := by
  cases p <;> decide

theorem mem_alphabet_of_mem_text (p : Prefix) : ∀ c ∈ p.text, c ∈ alphabet := by
  rw [alphabet_eq]
  cases p <;> simp [text]

theorem head_folders : ∀ p ∈ folders, p.text.head? = some 'f' := by decide

/-- The first suffixes, written out. -/
def shown : Prefix → Char
  | a => 'h'
  | b => '8'
  | c => 'd'
  | d => 'x'
  | e => 'z'
  | fa => '4'
  | fb => 'w'
  | fc => 'r'
  | fd => '5'
  | fe => '3'

theorem firstSuffix_of_ofList {p : Prefix} {cs : Str} {c : Char}
    (h : p.plain = String.ofList cs) (hc : (cs.zip alphabet).lookup '0' = some c) :
    p.firstSuffix = c := by
  rw [firstSuffix, transtab, h, String.toList_ofList, hc]
  rfl

theorem firstSuffix_eq (p : Prefix) : p.firstSuffix = p.shown := by
  cases p <;> exact firstSuffix_of_ofList rfl (by rw [alphabet_eq]; decide +kernel)

theorem firstSuffixToPrefix_firstSuffix (p : Prefix) :
    firstSuffixToPrefix p.firstSuffix = some p := by
  simp only [firstSuffixToPrefix, firstSuffix_eq]
  cases p <;> decide

theorem rev_lookup_firstSuffix (p : Prefix) :
    (p.transtabRev.lookup p.firstSuffix).getD p.firstSuffix = '0' :=
  (p.rev_lookup_lookup '0' zero_mem_alphabet).1

theorem firstSuffix_ne_zero (p : Prefix) : p.firstSuffix ≠ '0' := by
  rw [firstSuffix_eq]
  cases p <;> decide

theorem text_of_ofText {ps : List Prefix} {s : Str} {p : Prefix} (h : ofText ps s = some p) :
    p.text = s ∧ p ∈ ps :=
  ⟨by simpa using List.find?_some h, List.mem_of_find?_eq_some h⟩

end Prefix

theorem firstSuffix_of_firstSuffixToPrefix {c : Char} {p : Prefix}
    (h : firstSuffixToPrefix c = some p) : p.firstSuffix = c := by
  simpa using List.find?_some h

theorem translate_rev_translate (p : Prefix) {s : Str} (h : InAlphabet s) :
    translate p.transtabRev (translate p.transtab s) = s := by
  rw [translate, translate, List.map_map]
  exact (List.map_congr_left fun c hc => (p.rev_lookup_lookup c (h c hc)).1).trans s.map_id'

theorem translate_translate_rev (p : Prefix) {s : Str} (h : InAlphabet s) :
    translate p.transtab (translate p.transtabRev s) = s := by
  rw [translate, translate, List.map_map]
  exact (List.map_congr_left fun c hc => (p.lookup_rev_lookup c (h c hc)).1).trans s.map_id'

theorem inAlphabet_translate (p : Prefix) {s : Str} (h : InAlphabet s) :
    InAlphabet (translate p.transtab s) := by
  intro c hc
  obtain ⟨c', hc', rfl⟩ := List.mem_map.mp hc
  exact (p.rev_lookup_lookup c' (h c' hc')).2

theorem inAlphabet_translate_rev (p : Prefix) {s : Str} (h : InAlphabet s) :
    InAlphabet (translate p.transtabRev s) := by
  intro c hc
  obtain ⟨c', hc', rfl⟩ := List.mem_map.mp hc
  exact (p.lookup_rev_lookup c' (h c' hc')).2

@[simp] theorem length_translate (tab : List (Char × Char)) (s : Str) :
    (translate tab s).length = s.length := List.length_map _

/-! ### Base 36 -/

theorem digitValue_getD : ∀ r < 36, digitValue (alphabet.getD r '0') = some r := by
  rw [alphabet_eq]
  decide

theorem extract_alphabet : ∀ r < 36, alphabet.extract r (r + 1) = [alphabet.getD r '0'] := by
  rw [alphabet_eq]
  decide

theorem getD_mem_alphabet : ∀ r < 36, alphabet.getD r '0' ∈ alphabet := by
  rw [alphabet_eq]
  decide

/-- The digits of a positive number, highest first. -/
theorem b36encode_of_pos {n : ℕ} (h : 0 < n) :
    b36encode n = ((Nat.digits 36 n).map fun r => alphabet.getD r '0').reverse := by
  have hnot : ¬(n : ℤ) < 0 := by omega
  simp only [b36encode, if_neg hnot, Int.toNat_natCast]
  split_ifs with hlt
  · rw [Nat.digits_of_lt 36 n h.ne' hlt]
    exact extract_alphabet n hlt
  · rfl

theorem b36decode_reverse {ds : List ℕ} (hds : ∀ d ∈ ds, d < 36) (hne : ds ≠ []) :
    b36decode (ds.map fun r => alphabet.getD r '0').reverse = some (Nat.ofDigits 36 ds) := by
  have hfold : ∀ ds : List ℕ, (∀ d ∈ ds, d < 36) →
      (ds.map fun r => alphabet.getD r '0').reverse.foldlM
        (fun n c => (digitValue c).map (36 * n + ·)) 0 = some (Nat.ofDigits 36 ds) := by
    intro ds
    induction ds with
    | nil => intro _; rfl
    | cons d ds ih =>
      intro h
      have hd := digitValue_getD d (h d (by simp))
      rw [List.map_cons, List.reverse_cons, List.foldlM_append, ih fun x hx => h x (by simp [hx])]
      simp only [Option.bind_eq_bind, Option.bind_some, List.foldlM_cons, List.foldlM_nil, hd,
        Option.map_some, Nat.ofDigits_cons]
      rw [Option.pure_def, Nat.add_comm]
  rw [b36decode, if_neg (by simpa using hne)]
  exact hfold ds hds

theorem inAlphabet_b36encode {n : ℕ} (h : 0 < n) : InAlphabet (b36encode n) := by
  rw [b36encode_of_pos h]
  intro c hc
  obtain ⟨r, hr, rfl⟩ := List.mem_map.mp (List.mem_reverse.mp hc)
  exact getD_mem_alphabet r (Nat.digits_lt_base (by decide) hr)

theorem b36decode_b36encode {n : ℕ} (h : 0 < n) : b36decode (b36encode n) = some n := by
  rw [b36encode_of_pos h, b36decode_reverse]
  · rw [Nat.ofDigits_digits]
  · exact fun d hd => Nat.digits_lt_base (by decide) hd
  · exact Nat.digits_ne_nil_iff_ne_zero.mpr h.ne'

theorem b36encode_ne_nil {n : ℕ} (h : 0 < n) : b36encode n ≠ [] := by
  have hdigits := Nat.digits_ne_nil_iff_ne_zero (b := 36).mpr h.ne'
  rw [b36encode_of_pos h]
  simpa using hdigits

/-! ### Pickcodes -/

/-- A stable point as `get_stable_point` returns it. -/
structure Point (point : Str) : Prop where
  length : point.length = 4
  head : point.head? = some '0'
  inAlphabet : InAlphabet point

/-- The pickcode with prefix `p` of an id and a stable point. -/
def code (p : Prefix) (n : ℕ) (point : Str) : Str :=
  p.text ++ (translate p.transtab (b36encode n) ++ translate p.transtab point)

section Code

variable (p : Prefix) {n : ℕ} (hn : 0 < n) {point : Str} (hpoint : Point point)
include hn hpoint

theorem exists_code : ∃ c cipher last, translate p.transtab (b36encode n) = c :: cipher ∧
    translate p.transtab point = p.firstSuffix :: last ∧ last.length = 3 := by
  obtain ⟨c, cipher, hcipher⟩ := List.exists_cons_of_ne_nil
    (show translate p.transtab (b36encode n) ≠ [] by simpa [translate] using b36encode_ne_nil hn)
  obtain ⟨tail, rfl⟩ := List.head?_eq_some_iff.mp hpoint.head
  have hlen := hpoint.length
  exact ⟨c, cipher, translate p.transtab tail, hcipher, rfl, by simpa using hlen⟩

theorem inAlphabet_code : InAlphabet (code p n point) := by
  intro c hc
  obtain hc | hc | hc := by simpa only [code, List.mem_append] using hc
  · exact p.mem_alphabet_of_mem_text c hc
  · exact inAlphabet_translate p (inAlphabet_b36encode hn) c hc
  · exact inAlphabet_translate p hpoint.inAlphabet c hc

theorem strip_code : strip alphabet (code p n point) = [] := by
  have hdrop : (code p n point).dropWhile (· ∈ alphabet) = [] :=
    List.dropWhile_eq_nil_iff.mpr fun c hc => by simpa using inAlphabet_code p hn hpoint c hc
  rw [strip, hdrop]
  rfl

omit hn in
theorem drop_code :
    (code p n point).drop ((code p n point).length - 4) = translate p.transtab point := by
  rw [code, ← List.append_assoc, List.drop_left']
  simp only [List.length_append, length_translate, hpoint.length]
  omega

theorem isValidPickcode_code : isValidPickcode (code p n point) = some true := by
  have hstrip := strip_code p hn hpoint
  have hlast := drop_code p (n := n) hpoint
  obtain ⟨c, cipher, last, hcipher, hsuffix, hlen⟩ := exists_code p hn hpoint
  have hfirst := p.firstSuffixToPrefix_firstSuffix
  have htext := p.ofText_text
  rw [isValidPickcode, hlast, hstrip, hsuffix]
  cases p <;> simp_all [code, Prefix.text]

theorem pickcodeToId_code : pickcodeToId (code p n point) = some n := by
  have hcipher : (code p n point).extract p.text.length ((code p n point).length - 4) =
      translate p.transtab (b36encode n) := by
    rw [List.extract_eq_take_drop, code, List.drop_left, List.take_left']
    simp [hpoint.length]
    omega
  have hrev := translate_rev_translate p (inAlphabet_b36encode hn)
  have hid := b36decode_b36encode hn
  have htext := p.ofText_text
  rw [pickcodeToId]
  cases p <;> simp_all [code, Prefix.text]

theorem getStablePoint_code : getStablePoint (code p n point) = some point := by
  have hlast := drop_code p (n := n) hpoint
  have hrev := translate_rev_translate p hpoint.inAlphabet
  obtain ⟨c, cipher, last, hcipher, hsuffix, hlen⟩ := exists_code p hn hpoint
  simp only [getStablePoint, hlast]
  cases p <;> simp_all [code, Prefix.text, Prefix.ofText, Prefix.folders, Prefix.files]

end Code

/-! ### From a stable point to a pickcode -/

/-- What `id_to_pickcode` takes for a stable point: up to three characters, four that begin with
`0`, an encrypted suffix, or a pickcode. -/
inductive StablePoint : Str → Prop
  | short {s : Str} (hlen : s.length < 4) (hs : InAlphabet s) : StablePoint s
  | plain {s : Str} (hs : Point s) : StablePoint s
  | suffix {p : Prefix} {last : Str} (hlen : last.length = 3) (hs : InAlphabet last) :
      StablePoint (p.firstSuffix :: last)
  | pickcode {s : Str} (hne : s ≠ []) (hvalid : isValidPickcode s = some true) : StablePoint s

theorem point_short {s : Str} (hlen : s.length < 4) (hs : InAlphabet s) :
    Point (List.replicate (4 - s.length) '0' ++ s) := by
  refine ⟨?_, ?_, fun c hc => ?_⟩
  · rw [List.length_append, List.length_replicate]
    omega
  · obtain ⟨k, hk⟩ : ∃ k, 4 - s.length = k + 1 := ⟨3 - s.length, by omega⟩
    rw [hk, List.replicate_succ]
    rfl
  · obtain hc | hc := List.mem_append.mp hc
    · rw [List.eq_of_mem_replicate hc]
      exact zero_mem_alphabet
    · exact hs c hc

/-- An encrypted suffix decrypts to a stable point. -/
theorem point_translate_rev (p : Prefix) {last : Str} (hlen : last.length = 3)
    (hs : InAlphabet last) : Point (translate p.transtabRev (p.firstSuffix :: last)) := by
  refine ⟨by simp [hlen], ?_, ?_⟩
  · exact congrArg some p.rev_lookup_firstSuffix
  · refine inAlphabet_translate_rev p fun c hc => ?_
    obtain rfl | hc := List.mem_cons.mp hc
    · exact (p.rev_lookup_lookup '0' zero_mem_alphabet).2
    · exact hs c hc

/-- With a stable point that shows its prefix `p`, as a suffix or a pickcode. -/
theorem idToPickcode_locked {n : ℕ} (hn : 0 < n) {s last : Str} {p : Prefix} {pre : Option Prefix}
    (hresolve : resolve s pre = some (p, false, s))
    (hlast : s.drop (s.length - 4) = p.firstSuffix :: last) (hs : InAlphabet last) :
    idToPickcode n s pre =
      some (code (pre.getD p) n (translate p.transtabRev (p.firstSuffix :: last))) := by
  have hpos : ¬(n : ℤ) = 0 := by omega
  have hneg : ¬(n : ℤ) < 0 := by omega
  have hdrop : (if s.length > 4 then s.drop (s.length - 4) else s) = p.firstSuffix :: last := by
    split_ifs with h
    · exact hlast
    · rw [Nat.sub_eq_zero_of_le (by omega), List.drop_zero] at hlast
      exact hlast
  have halpha : InAlphabet (p.firstSuffix :: last) := by
    intro c hc
    obtain rfl | hc := List.mem_cons.mp hc
    · exact (p.rev_lookup_lookup '0' zero_mem_alphabet).2
    · exact hs c hc
  simp only [idToPickcode, if_neg hpos, if_neg hneg, hresolve, Option.map_some, hdrop,
    Bool.false_eq_true, if_false, code, List.append_assoc]
  split_ifs with hsame
  · have hp : pre.getD p = p := by
      obtain rfl | rfl := hsame <;> rfl
    rw [hp, translate_translate_rev p halpha]
  · rfl

/-- With a stable point in the clear. -/
theorem idToPickcode_open {n : ℕ} (hn : 0 < n) {s point : Str} {pre : Option Prefix}
    (hresolve : resolve s pre = some (pre.getD .a, true, point)) (hlen : s.length ≤ 4) :
    idToPickcode n s pre = some (code (pre.getD .a) n point) := by
  have hpos : ¬(n : ℤ) = 0 := by omega
  have hneg : ¬(n : ℤ) < 0 := by omega
  have hp : pre.getD (pre.getD Prefix.a) = pre.getD .a := by cases pre <;> rfl
  simp only [idToPickcode, if_neg hpos, if_neg hneg, hresolve, Option.map_some, hp, if_true,
    if_neg (Nat.not_lt.mpr hlen), code, List.append_assoc]

theorem inAlphabet_of_strip {s : Str} (h : strip alphabet s = []) : InAlphabet s := by
  have hrest : ∀ c ∈ s.dropWhile (· ∈ alphabet), c ∈ alphabet := fun c hc => by
    have hall := List.dropWhile_eq_nil_iff.mp (List.reverse_eq_nil_iff.mp h)
    simpa using hall c (List.mem_reverse.mpr hc)
  intro c hc
  rw [← List.takeWhile_append_dropWhile (p := (· ∈ alphabet)) (l := s)] at hc
  obtain hc | hc := List.mem_append.mp hc
  · simpa using List.mem_takeWhile_imp hc
  · exact hrest c hc

/-- The texts of the folder prefixes begin with `f`, those of the file prefixes are one other
letter. -/
theorem ofText_of_head {s : Str} {p : Prefix} :
    (s.head? = some 'f' → Prefix.ofText (Prefix.files ++ Prefix.folders) (s.take 2) = some p →
      Prefix.ofText Prefix.folders (s.take 2) = some p) ∧
    (s.head? ≠ some 'f' → Prefix.ofText (Prefix.files ++ Prefix.folders) (s.take 1) = some p →
      Prefix.ofText Prefix.folders (s.take 2) = none ∧
        Prefix.ofText Prefix.files (s.take 1) = some p) := by
  have hhead : ∀ k, 0 < k → (s.take k).head? = s.head? := by
    intro k hk
    cases s with
    | nil => simp
    | cons c s => obtain ⟨k, rfl⟩ := Nat.exists_eq_add_of_lt hk; simp
  constructor
  · intro hf h
    obtain ⟨htext, -⟩ := Prefix.text_of_ofText h
    have hp : p.text.head? = some 'f' := by rw [htext, hhead 2 (by omega), hf]
    rw [← htext]
    cases p <;> first | rfl | exact absurd hp (by decide)
  · intro hf h
    obtain ⟨htext, -⟩ := Prefix.text_of_ofText h
    have hp : p.text.length ≤ 1 := by
      rw [htext]
      exact List.length_take_le _ _
    constructor
    · refine List.find?_eq_none.mpr fun q hq => ?_
      simp only [decide_eq_true_eq]
      intro htake
      have hq' : q.text.head? = some 'f' := Prefix.head_folders q hq
      exact hf (by rw [← hhead 2 (by omega), ← htake, hq'])
    · rw [← htext]
      cases p <;> first | rfl | exact absurd hp (by decide)

/-- The last check of `is_valid_pickcode`. -/
theorem exists_of_match {s text : Str} (hlong : 6 ≤ s.length) (hs : InAlphabet s)
    (h : (match Prefix.ofText (Prefix.files ++ Prefix.folders) text with
      | none => some false
      | some p => ((s.drop (s.length - 4)).head?.bind firstSuffixToPrefix).map fun q => p = q) =
        some true) :
    ∃ p last, s.drop (s.length - 4) = p.firstSuffix :: last ∧ last.length = 3 ∧
      InAlphabet last ∧ Prefix.ofText (Prefix.files ++ Prefix.folders) text = some p := by
  split at h
  · cases h
  rename_i p hp
  obtain ⟨q, hq, hpq⟩ := Option.map_eq_some_iff.mp h
  obtain ⟨c, hc, hcq⟩ := Option.bind_eq_some_iff.mp hq
  obtain rfl : p = q := by simpa using hpq
  obtain ⟨last, hlast⟩ := List.head?_eq_some_iff.mp hc
  refine ⟨p, last, ?_, ?_, fun x hx => hs x ?_, hp⟩
  · rw [hlast, firstSuffix_of_firstSuffixToPrefix hcq]
  · have := congrArg List.length hlast
    rw [List.length_drop, List.length_cons] at this
    omega
  · exact List.mem_of_mem_drop (hlast ▸ List.mem_cons_of_mem _ hx)

/-- The prefix of a valid pickcode is the one that its suffix shows. -/
theorem exists_of_isValidPickcode {s : Str} (hne : s ≠ []) (h : isValidPickcode s = some true) :
    ∃ p last, s.drop (s.length - 4) = p.firstSuffix :: last ∧ last.length = 3 ∧
      InAlphabet last ∧ 6 ≤ s.length ∧
      (Prefix.ofText Prefix.folders (s.take 2) = some p ∨
        Prefix.ofText Prefix.folders (s.take 2) = none ∧
          Prefix.ofText Prefix.files (s.take 1) = some p) := by
  simp only [isValidPickcode, if_neg hne] at h
  split_ifs at h with hstrip hlen hf
  · cases h
  · cases h
  · have hlong : 6 ≤ s.length := by omega
    obtain ⟨p, last, hlast, hlen, hs, hp⟩ :=
      exists_of_match hlong (inAlphabet_of_strip (not_not.mp hstrip)) h
    exact ⟨p, last, hlast, hlen, hs, hlong, .inl (ofText_of_head.1 hf hp)⟩
  · have hlong : 6 ≤ s.length := by omega
    obtain ⟨p, last, hlast, hlen, hs, hp⟩ :=
      exists_of_match hlong (inAlphabet_of_strip (not_not.mp hstrip)) h
    exact ⟨p, last, hlast, hlen, hs, hlong, .inr (ofText_of_head.2 hf hp)⟩

/-- A valid pickcode as the stable point shows its prefix. -/
theorem resolve_of_ofText {s last : Str} {p : Prefix} (hlong : 6 ≤ s.length)
    (hlast : s.drop (s.length - 4) = p.firstSuffix :: last)
    (hp : Prefix.ofText Prefix.folders (s.take 2) = some p ∨
      Prefix.ofText Prefix.folders (s.take 2) = none ∧
        Prefix.ofText Prefix.files (s.take 1) = some p) (pre : Option Prefix) :
    resolve s pre = some (p, false, s) ∧
      getStablePoint s = some (translate p.transtabRev (p.firstSuffix :: last)) := by
  have hshort : ¬s.length < 4 := by omega
  have hfive : 5 ≤ s.length := by omega
  obtain hp | ⟨hnone, hp⟩ := hp
  · simp [resolve, getStablePoint, hshort, hlong, hp, hlast]
  · simp [resolve, getStablePoint, hshort, hlong, hfive, hnone, hp, hlast]

/-- A stable point has one form in the clear, and an id with it becomes a pickcode for it. -/
theorem StablePoint.exists_code {s : Str} (h : StablePoint s) {n : ℕ} (hn : 0 < n)
    (pre : Option Prefix) : ∃ point q, Point point ∧ getStablePoint s = some point ∧
      idToPickcode n s pre = some (code q n point) := by
  cases h with
  | short hlen hs =>
    have hpoint := point_short hlen hs
    have hresolve : resolve s pre =
        some (pre.getD .a, true, List.replicate (4 - s.length) '0' ++ s) := if_pos hlen
    exact ⟨_, _, hpoint, if_pos hlen, idToPickcode_open hn hresolve (by omega)⟩
  | plain hs =>
    have hlen := hs.length
    have hhead := hs.head
    have hresolve : resolve s pre = some (pre.getD .a, true, s) := by
      simp [resolve, hlen, hhead]
    exact ⟨s, _, hs, by simp [getStablePoint, hlen, hhead],
      idToPickcode_open hn hresolve (by omega)⟩
  | @suffix p last hlen hs =>
    have hpoint := point_translate_rev p hlen hs
    have hne := p.firstSuffix_ne_zero
    have hshow := p.firstSuffixToPrefix_firstSuffix
    have hresolve : resolve (p.firstSuffix :: last) pre =
        some (p, false, p.firstSuffix :: last) := by
      simp [resolve, hlen, hne, hshow]
    exact ⟨_, _, hpoint, by simp [getStablePoint, hlen, hne, hshow],
      idToPickcode_locked hn hresolve (by simp [hlen]) hs⟩
  | pickcode hne hvalid =>
    obtain ⟨p, last, hlast, hlen, hs, hlong, hp⟩ := exists_of_isValidPickcode hne hvalid
    have hpoint := point_translate_rev p hlen hs
    obtain ⟨hresolve, hget⟩ := resolve_of_ofText hlong hlast hp pre
    exact ⟨_, _, hpoint, hget, idToPickcode_locked hn hresolve hlast hs⟩

/-- For every id, stable point and prefix, the pickcode is valid and gives back the id and the
stable point. -/
theorem idToPickcode_spec {id : ℤ} (hid : 0 < id) {stablePoint : Str}
    (hpoint : StablePoint stablePoint) (pre : Option Prefix) :
    ∃ pickcode point, idToPickcode id stablePoint pre = some pickcode ∧
      isValidPickcode pickcode = some true ∧ (pickcodeToId pickcode).map Nat.cast = some id ∧
      getStablePoint stablePoint = some point ∧ getStablePoint pickcode = some point := by
  obtain ⟨n, rfl⟩ := Int.eq_ofNat_of_zero_le hid.le
  have hn : 0 < n := by omega
  obtain ⟨point, q, hp, hget, hcode⟩ := hpoint.exists_code hn pre
  refine ⟨code q n point, point, hcode, isValidPickcode_code q hn hp, ?_, hget,
    getStablePoint_code q hn hp⟩
  rw [pickcodeToId_code q hn hp]
  rfl

/-- A pickcode for a folder as the stable point of a file. -/
theorem idToPickcode_spec_folder : ∃ pickcode point,
    idToPickcode 42 "fa04hhh".toList (some .b) = some pickcode ∧
      isValidPickcode pickcode = some true ∧ (pickcodeToId pickcode).map Nat.cast = some (42 : ℤ) ∧
      getStablePoint "fa04hhh".toList = some point ∧ getStablePoint pickcode = some point :=
  idToPickcode_spec (by decide) (.pickcode (by decide) (by decide +kernel)) (some .b)

end AllInOneBackup.P115.Pickcode
