import AllInOneBackup.Data.Trim
import Mathlib.Algebra.Order.BigOperators.Group.List
import Mathlib.Algebra.Order.Ring.Int

/-! `parseRanges`. What a spec means is said apart from the code: by a grammar of its texts, and by
the bytes of the file that it asks for. -/

namespace AllInOneBackup.LitePan.Playback.Range

open Data Data.Text

/-! ### Numbers -/

def decimalValue (s : Text) : ℕ := s.foldl (fun n c => 10 * n + (c.toNat - '0'.toNat)) 0

/-- The digits of `strconv.ParseInt`. -/
def parseDigits (s : Text) : Option ℕ :=
  if s ≠ [] ∧ s.all Char.isDigit then some (decimalValue s) else none

/-- `strconv.ParseInt(s, 10, 64)`. -/
def parseInt (s : Text) : Option ℤ :=
  match s with
  | '-' :: digits => (parseDigits digits).bind fun n => if n ≤ 2 ^ 63 then some (-n) else none
  | '+' :: digits => (parseDigits digits).bind fun n => if n < 2 ^ 63 then some n else none
  | digits => (parseDigits digits).bind fun n => if n < 2 ^ 63 then some n else none

/-! ### `range.go` -/

structure ByteRange where
  start : ℤ
  last : ℤ
  deriving DecidableEq

def ByteRange.length (r : ByteRange) : ℤ := r.last - r.start + 1

inductive RangeError
  | noOverlap
  | other (msg : String)
  deriving DecidableEq

/-- `strings.HasPrefix(strings.ToLower(header), "bytes=")`; no letter but those of ASCII becomes one
of ASCII that occurs there. -/
def hasBytesUnit (header : Text) : Bool := (header.take 6).map Char.toLower = "bytes=".toList

/-- `strings.SplitN(s, "-", 2)`, where there is a hyphen. -/
def splitHyphen (s : Text) : Option (Text × Text) :=
  if '-' ∈ s then some (s.takeWhile (· ≠ '-'), (s.dropWhile (· ≠ '-')).drop 1) else none

/-- What the two sides of the hyphen say. -/
def parseSides (front back : Text) (size : ℤ) : Except RangeError ByteRange :=
  if front = [] then match parseInt back with
    | none => .error (.other "invalid suffix range")
    | some suffix =>
      if suffix ≤ 0 then .error (.other "invalid suffix range")
      else if size ≤ 0 then .error (.other "unknown size")
      else .ok ⟨if size - suffix < 0 then 0 else size - suffix, size - 1⟩
  else match parseInt front with
    | none => .error (.other "invalid range start")
    | some start =>
      if start < 0 then .error (.other "invalid range start")
      else if back = [] then
        if size ≤ 0 then .ok ⟨start, start⟩
        else if start ≥ size then .error .noOverlap
        else .ok ⟨start, size - 1⟩
      else match parseInt back with
        | none => .error (.other "invalid range end")
        | some last =>
          if last < start then .error (.other "invalid range end")
          else if size > 0 ∧ start ≥ size then .error .noOverlap
          else .ok ⟨start, if size > 0 ∧ last ≥ size then size - 1 else last⟩

def parseSingleRange (header : Text) (size : ℤ) : Except RangeError ByteRange :=
  let header := trimSpace header
  if ¬hasBytesUnit header then .error (.other "invalid range")
  else
    let spec := trimSpace (header.drop 6)
    if spec = [] ∨ ',' ∈ spec then .error (.other "multipart range not supported")
    else match splitHyphen spec with
      | none => .error (.other "invalid range")
      | some (front, back) => parseSides (trimSpace front) (trimSpace back) size

/-- The loop of `parseRanges`, and what follows it. -/
def collect (size total : ℤ) (ranges : List ByteRange) :
    List Text → Except RangeError (List ByteRange)
  | [] => if ranges = [] then .error .noOverlap else .ok ranges
  | spec :: specs =>
    if trimSpace spec = [] then collect size total ranges specs
    else match parseSingleRange ("bytes=".toList ++ spec) size with
      | .error .noOverlap => collect size total ranges specs
      | .error err => .error err
      | .ok ra =>
        if ra.length > size - total then .ok []
        else collect size (total + ra.length) (ranges ++ [ra]) specs

def parseRanges (header : Text) (size : ℤ) : Except RangeError (List ByteRange) :=
  let header := trimSpace header
  if ¬hasBytesUnit header then .error (.other "invalid range")
  -- Too many specs are passed over, and so are ranges that are together longer than the file.
  else if header.count ',' ≥ 32 then .ok []
  else collect size 0 [] (Text.split ',' (header.drop 6))

/-! ### What a spec means -/

/-- A spec of RFC 9110: `first-`, `first-last` or `-length`. -/
inductive Spec
  | starting (first : ℕ)
  | between (first last : ℕ)
  | suffix (length : ℕ)

/-- Digits of a number that an int64 holds. -/
structure Number (s : Text) (n : ℕ) : Prop where
  ne_nil : s ≠ []
  digits : ∀ c ∈ s, c.isDigit
  value : decimalValue s = n
  lt : n < 2 ^ 63

/-- The texts of a spec; white space may surround its numbers. -/
inductive Reads : Text → Spec → Prop
  | starting {a s b c : Text} {first : ℕ} (hs : Number s first) (ha : Blank a) (hb : Blank b)
      (hc : Blank c) : Reads (a ++ s ++ b ++ '-' :: c) (.starting first)
  | between {a s b c t d : Text} {first last : ℕ} (hs : Number s first) (ht : Number t last)
      (hle : first ≤ last) (ha : Blank a) (hb : Blank b) (hc : Blank c) (hd : Blank d) :
      Reads (a ++ s ++ b ++ '-' :: (c ++ t ++ d)) (.between first last)
  | suffix {a c t d : Text} {length : ℕ} (ht : Number t length) (hpos : 0 < length) (ha : Blank a)
      (hc : Blank c) (hd : Blank d) : Reads (a ++ '-' :: (c ++ t ++ d)) (.suffix length)

/-- The bytes that a spec asks for, of a file of `size` bytes. -/
def Spec.range (size : ℤ) : Spec → Option ByteRange
  | .starting first => if first < size then some ⟨first, size - 1⟩ else none
  | .between first last => if first < size then some ⟨first, min last (size - 1)⟩ else none
  | .suffix length => some ⟨size - min (length : ℤ) size, size - 1⟩

/-- The header is `bytes=` and, between at most 31 commas, the specs; blank elements do not count. -/
def Lists (header : Text) (specs : List Spec) : Prop :=
  hasBytesUnit (trimSpace header) ∧ (trimSpace header).count ',' < 32 ∧
    List.Forall₂ Reads
      ((Text.split ',' ((trimSpace header).drop 6)).filter fun s => trimSpace s ≠ []) specs

example : parseRanges "bytes= 0-1, 9- ,-3".toList 5 = .ok [⟨0, 1⟩, ⟨2, 4⟩] := by decide

/-! ### Numbers and sides -/

theorem digit_spec {c : Char} (h : c.isDigit) :
    c ≠ '-' ∧ c ≠ '+' ∧ c ≠ ',' ∧ isSpace c = false := by
  simp only [Char.isDigit, ge_iff_le, Bool.and_eq_true, decide_eq_true_eq] at h
  obtain ⟨hlower, hupper⟩ := h
  have hlower' : 48 ≤ c.toNat := hlower
  have hupper' : c.toNat ≤ 57 := hupper
  refine ⟨?_, ?_, ?_, ?_⟩
  · rintro rfl
    exact absurd hlower' (by decide)
  · rintro rfl
    exact absurd hlower' (by decide)
  · rintro rfl
    exact absurd hlower' (by decide)
  · simp only [isSpace, List.mem_cons, List.not_mem_nil, or_false, Bool.or_eq_false_iff,
      decide_eq_false_iff_not]
    omega

section Sides

variable {s t front back : Text} {m n : ℕ} {size : ℤ}

theorem Number.trimSpace_eq (h : Number s n) : trimSpace s = s := by
  refine trim_eq_self (fun x hx => ?_) (fun x hx => ?_)
  · exact (digit_spec (h.digits x (List.mem_of_mem_head? hx))).2.2.2
  · exact (digit_spec (h.digits x (List.mem_of_getLast? hx))).2.2.2

theorem Number.parseDigits_eq (h : Number s n) : parseDigits s = some n := by
  rw [parseDigits, if_pos ⟨h.ne_nil, List.all_eq_true.mpr h.digits⟩, h.value]

theorem Number.parseInt_eq (h : Number s n) : parseInt s = some (n : ℤ) := by
  have hdigits := h.digits
  unfold parseInt
  split
  · exact absurd rfl (digit_spec (hdigits '-' List.mem_cons_self)).1
  · exact absurd rfl (digit_spec (hdigits '+' List.mem_cons_self)).2.1
  · rw [h.parseDigits_eq, Option.bind_some, if_pos h.lt]

theorem number_of_parseDigits (h : parseDigits s = some n) (hlt : n < 2 ^ 63) : Number s n := by
  unfold parseDigits at h
  split_ifs at h with hs
  exact ⟨hs.1, List.all_eq_true.mp hs.2, Option.some.inj h, hlt⟩

/-- A text without a sign that is read is a number. -/
theorem number_of_parseInt {z : ℤ} (hminus : s.head? ≠ some '-') (hplus : '+' ∉ s)
    (h : parseInt s = some z) : ∃ n : ℕ, z = n ∧ Number s n := by
  unfold parseInt at h
  split at h
  · exact absurd rfl hminus
  · exact absurd List.mem_cons_self hplus
  · obtain ⟨n, hn, h⟩ := Option.bind_eq_some_iff.mp h
    split_ifs at h with hlt
    exact ⟨n, (Option.some.inj h).symm, number_of_parseDigits hn hlt⟩

/-- The answer for a spec. -/
def Spec.answer (size : ℤ) (spec : Spec) : Except RangeError ByteRange :=
  match spec.range size with
  | some r => .ok r
  | none => .error .noOverlap

theorem parseSides_starting (hs : Number s n) (hsize : 0 < size) :
    parseSides s [] size = (Spec.starting n).answer size := by
  rw [parseSides, if_neg hs.ne_nil, hs.parseInt_eq]
  simp only [if_neg (not_lt.mpr (Int.natCast_nonneg n)), if_true, if_neg (not_le.mpr hsize),
    Spec.answer, Spec.range]
  by_cases hlt : (n : ℤ) < size
  · rw [if_pos hlt, if_neg (not_le.mpr hlt)]
  · rw [if_neg hlt, if_pos (not_lt.mp hlt)]

theorem parseSides_between (hs : Number s m) (ht : Number t n) (hle : m ≤ n) (hsize : 0 < size) :
    parseSides s t size = (Spec.between m n).answer size := by
  rw [parseSides, if_neg hs.ne_nil, hs.parseInt_eq]
  simp only [if_neg (not_lt.mpr (Int.natCast_nonneg m)), if_neg ht.ne_nil, ht.parseInt_eq,
    if_neg (not_lt.mpr (Int.ofNat_le.mpr hle)), Spec.answer, Spec.range]
  by_cases hlt : (m : ℤ) < size
  · rw [if_pos hlt, if_neg (fun h => absurd hlt (not_lt.mpr h.2))]
    simp only [Except.ok.injEq, ByteRange.mk.injEq, true_and]
    split_ifs with hlast
    · omega
    · omega
  · rw [if_neg hlt, if_pos ⟨hsize, not_lt.mp hlt⟩]

theorem parseSides_suffix (ht : Number t n) (hpos : 0 < n) (hsize : 0 < size) :
    parseSides [] t size = (Spec.suffix n).answer size := by
  rw [parseSides, if_pos rfl, ht.parseInt_eq]
  simp only [if_neg (not_le.mpr hsize), Spec.answer, Spec.range]
  rw [if_neg (by omega)]
  simp only [Except.ok.injEq, ByteRange.mk.injEq, and_true]
  split_ifs with hshort
  · omega
  · omega

/-- Sides without signs that are accepted, or do not overlap the file, are those of a spec. -/
theorem sides_of_parseSides (hfront : '-' ∉ front) (hback : back.head? ≠ some '-')
    (hplus : '+' ∉ front) (hplus' : '+' ∉ back)
    (h : ∀ msg, parseSides front back size ≠ .error (.other msg)) :
    (∃ n, Number front n ∧ back = []) ∨ (∃ m n, Number front m ∧ Number back n ∧ m ≤ n) ∨
      ∃ n, front = [] ∧ Number back n ∧ 0 < n := by
  have hhead : front.head? ≠ some '-' := fun heq => hfront (List.mem_of_mem_head? heq)
  unfold parseSides at h
  by_cases hnil : front = []
  · right; right
    rw [if_pos hnil] at h
    cases hint : parseInt back with
    | none => simp [hint] at h
    | some suffix =>
      obtain ⟨n, rfl, hn⟩ := number_of_parseInt hback hplus' hint
      refine ⟨n, hnil, hn, ?_⟩
      by_contra hpos
      simp only [hint] at h
      rw [if_pos (by omega)] at h
      exact h _ rfl
  · rw [if_neg hnil] at h
    cases hint : parseInt front with
    | none => simp [hint] at h
    | some start =>
      obtain ⟨m, rfl, hm⟩ := number_of_parseInt hhead hplus hint
      simp only [hint, if_neg (not_lt.mpr (Int.natCast_nonneg m))] at h
      by_cases hempty : back = []
      · exact .inl ⟨m, hm, hempty⟩
      · right; left
        rw [if_neg hempty] at h
        cases hlast : parseInt back with
        | none => simp [hlast] at h
        | some last =>
          obtain ⟨n, rfl, hn⟩ := number_of_parseInt hback hplus' hlast
          refine ⟨m, n, hm, hn, ?_⟩
          by_contra hle
          simp only [hlast] at h
          rw [if_pos (by omega)] at h
          exact h _ rfl

end Sides

/-! ### Specs -/

section Specs

variable {text a b : Text} {size : ℤ}

theorem splitHyphen_append (ha : '-' ∉ a) : splitHyphen (a ++ '-' :: b) = some (a, b) := by
  have hne : ∀ x ∈ a, decide (x ≠ '-') = true := by
    intro x hx
    exact decide_eq_true fun heq => ha (heq ▸ hx)
  rw [splitHyphen, if_pos (by simp), List.takeWhile_append_of_pos hne,
    List.dropWhile_append_of_pos hne]
  simp

theorem not_isSpace_hyphen : isSpace '-' = false := by decide

/-- The code trims the header once more, with `bytes=` before the spec. -/
theorem parseSingleRange_append (text : Text) (size : ℤ) :
    parseSingleRange ("bytes=".toList ++ text) size =
      if trimSpace text = [] ∨ ',' ∈ trimSpace text then
        .error (.other "multipart range not supported")
      else match splitHyphen (trimSpace text) with
        | none => .error (.other "invalid range")
        | some (front, back) => parseSides (trimSpace front) (trimSpace back) size := by
  have htrim : trimSpace ("bytes=".toList ++ text) =
      "bytes=".toList ++ text.rdropWhile isSpace := by
    have hcons := trim_append_cons (p := isSpace) (a := "bytes".toList) (b := text)
      (x := '=') (by decide)
    exact hcons
  have hunit : hasBytesUnit ("bytes=".toList ++ text.rdropWhile isSpace) = true := by
    simp [hasBytesUnit]
  have hdrop : ("bytes=".toList ++ text.rdropWhile isSpace).drop 6 = text.rdropWhile isSpace := rfl
  rw [parseSingleRange, htrim]
  simp only [hunit, not_true_eq_false, if_false, hdrop]
  rw [show trimSpace (text.rdropWhile isSpace) = trimSpace text from trim_rdropWhile text]

theorem parseSingleRange_cut (ha : '-' ∉ a) (hcomma : ',' ∉ a ++ '-' :: b) :
    parseSingleRange ("bytes=".toList ++ (a ++ '-' :: b)) size =
      parseSides (trimSpace a) (trimSpace b) size := by
  have htrim : trimSpace (a ++ '-' :: b) = a.dropWhile isSpace ++ '-' :: b.rdropWhile isSpace :=
    trim_append_cons not_isSpace_hyphen
  rw [parseSingleRange_append, if_neg]
  · rw [htrim, splitHyphen_append fun hmem => ha ((List.dropWhile_suffix _).subset hmem)]
    simp only [trimSpace, trim_dropWhile, trim_rdropWhile]
  · rintro (hnil | hmem)
    · rw [htrim] at hnil
      simp at hnil
    · exact hcomma (mem_of_mem_trim hmem)

theorem hyphen_not_mem_blank (h : Blank a) : '-' ∉ a := fun hmem => by
  have hspace := h '-' hmem
  rw [not_isSpace_hyphen] at hspace
  cases hspace

theorem hyphen_not_mem_number {s : Text} {n : ℕ} (h : Number s n) : '-' ∉ s := fun hmem =>
  (digit_spec (h.digits '-' hmem)).1 rfl

theorem trimSpace_surround {s c d : Text} (hc : Blank c) (hd : Blank d) :
    trimSpace (c ++ s ++ d) = trimSpace s := trim_surround hc hd

/-- A text of a spec is answered as the spec says. -/
theorem answer_of_reads {spec : Spec} (h : Reads text spec) (hcomma : ',' ∉ text)
    (hsize : 0 < size) :
    parseSingleRange ("bytes=".toList ++ text) size = spec.answer size := by
  cases h with
  | @starting a s b c first hs ha hb hc =>
    have hfront : '-' ∉ a ++ s ++ b := by
      simp [hyphen_not_mem_blank ha, hyphen_not_mem_blank hb, hyphen_not_mem_number hs]
    rw [parseSingleRange_cut hfront hcomma, trimSpace_surround ha hb, hs.trimSpace_eq,
      trimSpace_eq_nil_iff.mpr hc, parseSides_starting hs hsize]
  | @between a s b c t d first last hs ht hle ha hb hc hd =>
    have hfront : '-' ∉ a ++ s ++ b := by
      simp [hyphen_not_mem_blank ha, hyphen_not_mem_blank hb, hyphen_not_mem_number hs]
    rw [parseSingleRange_cut hfront hcomma, trimSpace_surround ha hb, hs.trimSpace_eq,
      trimSpace_surround hc hd, ht.trimSpace_eq, parseSides_between hs ht hle hsize]
  | @suffix a c t d length ht hpos ha hc hd =>
    rw [parseSingleRange_cut (hyphen_not_mem_blank ha) hcomma, trimSpace_eq_nil_iff.mpr ha,
      trimSpace_surround hc hd, ht.trimSpace_eq, parseSides_suffix ht hpos hsize]

/-- No number has a sign: neither a plus sign, nor a hyphen right behind the hyphen of the spec. -/
structure Signless (text : Text) : Prop where
  plus : '+' ∉ text
  hyphens : ∀ a w b, text = a ++ '-' :: (w ++ '-' :: b) → ¬Blank w

theorem Signless.infix (h : Signless text) (ha : a <:+: text) : Signless a := by
  obtain ⟨u, v, rfl⟩ := ha
  refine ⟨fun hmem => h.plus (by simp [hmem]), fun x w y hxy => ?_⟩
  refine h.hyphens (u ++ x) w (y ++ v) ?_
  rw [hxy]
  simp

/-- A text without signs that is accepted, or does not overlap the file, is that of a spec. -/
theorem reads_of_parseSingleRange (size : ℤ) (hsign : Signless text)
    (h : ∀ msg, parseSingleRange ("bytes=".toList ++ text) size ≠ .error (.other msg)) :
    ∃ spec, Reads text spec := by
  have hcomma : ',' ∉ trimSpace text := by
    intro hmem
    rw [parseSingleRange_append, if_pos (.inr hmem)] at h
    exact h _ rfl
  have hnil : trimSpace text ≠ [] := by
    intro hnil
    rw [parseSingleRange_append, if_pos (.inl hnil)] at h
    exact h _ rfl
  have hhyphen : '-' ∈ trimSpace text := by
    by_contra hnot
    rw [parseSingleRange_append, if_neg (by simp [hnil, hcomma]), splitHyphen, if_neg hnot] at h
    exact h _ rfl
  obtain ⟨front, back, rfl, hfront⟩ := List.eq_append_cons_of_mem (mem_of_mem_trim hhyphen)
  have htrim : trimSpace (front ++ '-' :: back) =
      front.dropWhile isSpace ++ '-' :: back.rdropWhile isSpace :=
    trim_append_cons not_isSpace_hyphen
  rw [parseSingleRange_append, if_neg (by simp [hnil, hcomma]), htrim,
    splitHyphen_append fun hmem => hfront ((List.dropWhile_suffix _).subset hmem)] at h
  simp only [trimSpace, trim_dropWhile, trim_rdropWhile] at h
  obtain ⟨a, b, ha, hb, hs⟩ := exists_trim (p := isSpace) front
  obtain ⟨c, d, hc, hd, ht⟩ := exists_trim (p := isSpace) back
  have hhead : (trim isSpace back).head? ≠ some '-' := by
    intro heq
    obtain ⟨rest, hrest⟩ := List.head?_eq_some_iff.mp heq
    refine hsign.hyphens front c (rest ++ d) ?_ hc
    conv_lhs => rw [ht, hrest]
    simp
  have hsides := sides_of_parseSides (fun hmem => hfront (mem_of_mem_trim hmem)) hhead
    (fun hmem => hsign.plus (List.mem_append_left _ (mem_of_mem_trim hmem)))
    (fun hmem => hsign.plus (List.mem_append_right _ (List.mem_cons_of_mem _
      (mem_of_mem_trim hmem)))) h
  rw [hs, ht]
  rcases hsides with ⟨n, hn, hback⟩ | ⟨m, n, hm, hn, hle⟩ | ⟨n, hempty, hn, hpos⟩
  · rw [hback, List.append_nil]
    exact ⟨_, .starting hn ha hb fun x hx => (List.mem_append.mp hx).elim (hc x) (hd x)⟩
  · exact ⟨_, .between hm hn hle ha hb hc hd⟩
  · rw [hempty, List.append_nil]
    exact ⟨_, .suffix hn hpos (fun x hx => (List.mem_append.mp hx).elim (ha x) (hb x)) hc hd⟩

end Specs

/-! ### Lists of specs -/

/-- A piece lies in the text, and has no separator. -/
theorem mem_split {c : Char} {s piece : Text} (h : piece ∈ Text.split c s) :
    c ∉ piece ∧ piece <:+: s := by
  have hgo : ∀ s acc : Text, c ∉ acc → piece ∈ s.splitOnPPrepend (· == c) acc →
      c ∉ piece ∧ piece <:+: acc.reverse ++ s := by
    intro s
    induction s with
    | nil =>
      intro acc hacc hmem
      rw [List.splitOnPPrepend_nil, List.mem_singleton] at hmem
      rw [hmem, List.append_nil]
      exact ⟨fun hc => hacc (List.mem_reverse.mp hc), List.infix_rfl⟩
    | cons x s ih =>
      intro acc hacc hmem
      by_cases hx : x = c
      · rw [List.splitOnPPrepend_cons_pos (by simpa using hx), List.mem_cons] at hmem
        rcases hmem with rfl | hmem
        · exact ⟨fun hc => hacc (List.mem_reverse.mp hc), (List.prefix_append _ _).isInfix⟩
        · have hpiece := ih [] (by simp) hmem
          refine ⟨hpiece.1, hpiece.2.trans ?_⟩
          exact ((List.suffix_cons x s).trans (List.suffix_append _ _)).isInfix
      · rw [List.splitOnPPrepend_cons_neg (by simpa using hx)] at hmem
        have hpiece := ih (x :: acc) (by simpa [hacc, eq_comm] using hx) hmem
        simpa using hpiece
  have hsplit := hgo s [] (by simp)
  rw [Text.split, List.splitOn_eq_splitOnP] at h
  simpa using hsplit h

section Lists

variable {header : Text} {size total : ℤ} {ranges out : List ByteRange} {texts : List Text}
  {specs : List Spec}

/-- The sum of the lengths. -/
def totalLength (ranges : List ByteRange) : ℤ := (ranges.map ByteRange.length).sum

theorem totalLength_concat (ranges : List ByteRange) (ra : ByteRange) :
    totalLength (ranges ++ [ra]) = totalLength ranges + ra.length := by
  simp [totalLength]

/-- The range is one of bytes of the file. -/
def Within (size : ℤ) (ra : ByteRange) : Prop := 0 ≤ ra.start ∧ ra.start ≤ ra.last ∧ ra.last < size

theorem parseSides_within {front back : Text} {ra : ByteRange} (hsize : 0 < size)
    (h : parseSides front back size = .ok ra) : Within size ra := by
  unfold parseSides at h
  by_cases hnil : front = []
  · rw [if_pos hnil] at h
    cases hsuffix : parseInt back with
    | none => simp [hsuffix] at h
    | some suffix =>
      simp only [hsuffix] at h
      split_ifs at h
      all_goals
        rw [← Except.ok.inj h]
        simp only [Within]
        omega
  · rw [if_neg hnil] at h
    cases hstart : parseInt front with
    | none => simp [hstart] at h
    | some start =>
      simp only [hstart] at h
      by_cases hempty : back = []
      · simp only [if_pos hempty] at h
        split_ifs at h
        · omega
        · rw [← Except.ok.inj h]
          simp only [Within]
          omega
      · cases hlast : parseInt back with
        | none =>
          simp only [hlast, if_neg hempty] at h
          split_ifs at h
        | some last =>
          simp only [hlast, if_neg hempty] at h
          split_ifs at h
          all_goals
            rw [← Except.ok.inj h]
            simp only [Within]
            omega

theorem parseSingleRange_within {text : Text} {ra : ByteRange} (hsize : 0 < size)
    (h : parseSingleRange ("bytes=".toList ++ text) size = .ok ra) : Within size ra := by
  rw [parseSingleRange_append] at h
  split_ifs at h
  split at h
  · simp at h
  · exact parseSides_within hsize h

theorem collect_within (hsize : 0 < size) (htotal : totalLength ranges = total) (hle : total ≤ size)
    (hranges : ∀ ra ∈ ranges, Within size ra) (h : collect size total ranges texts = .ok out) :
    (∀ ra ∈ out, Within size ra) ∧ totalLength out ≤ size := by
  induction texts generalizing total ranges with
  | nil =>
    rw [collect] at h
    split_ifs at h
    rw [← Except.ok.inj h, htotal]
    exact ⟨hranges, hle⟩
  | cons text texts ih =>
    rw [collect] at h
    split_ifs at h
    · exact ih htotal hle hranges h
    · split at h
      · exact ih htotal hle hranges h
      · simp at h
      · rename_i ra hra
        split_ifs at h with hlong
        · rw [← Except.ok.inj h]
          exact ⟨by simp, hsize.le⟩
        · refine ih (by rw [totalLength_concat, htotal]) (by omega) ?_ h
          intro x hx
          rcases List.mem_append.mp hx with hx | hx
          · exact hranges x hx
          · rw [List.mem_singleton.mp hx]
            exact parseSingleRange_within hsize hra

/-- What is answered to the ranges of specs that are all well formed. -/
def answerAll (size : ℤ) (ranges : List ByteRange) : Except RangeError (List ByteRange) :=
  if totalLength ranges > size then .ok []
  else if ranges = [] then .error .noOverlap else .ok ranges

theorem totalLength_nonneg (hranges : ∀ ra ∈ ranges, Within size ra) : 0 ≤ totalLength ranges := by
  refine List.sum_nonneg fun x hx => ?_
  obtain ⟨ra, hra, rfl⟩ := List.mem_map.mp hx
  have hwithin := hranges ra hra
  simp only [Within] at hwithin
  simp only [ByteRange.length]
  omega

theorem range_within {text : Text} {spec : Spec} {ra : ByteRange} (hsize : 0 < size)
    (hreads : Reads text spec) (h : spec.range size = some ra) : Within size ra := by
  cases hreads with
  | starting =>
    simp only [Spec.range] at h
    split_ifs at h with hlt
    rw [← Option.some.inj h]
    simp only [Within]
    omega
  | between _ _ hle =>
    simp only [Spec.range] at h
    split_ifs at h with hlt
    rw [← Option.some.inj h]
    simp only [Within]
    omega
  | suffix _ hpos =>
    simp only [Spec.range] at h
    rw [← Option.some.inj h]
    simp only [Within]
    omega

theorem ranges_within (hsize : 0 < size) (hreads : List.Forall₂ Reads texts specs) :
    ∀ ra ∈ specs.filterMap (Spec.range size), Within size ra := by
  induction hreads with
  | nil => simp
  | @cons text spec texts specs hread _ ih =>
    intro ra hra
    rcases List.mem_filterMap.mp hra with ⟨x, hx, hrange⟩
    rcases List.mem_cons.mp hx with rfl | hx
    · exact range_within hsize hread hrange
    · exact ih ra (List.mem_filterMap.mpr ⟨x, hx, hrange⟩)

/-- The loop answers to well-formed specs as they say. -/
theorem collect_of_reads (hsize : 0 < size) (htotal : totalLength ranges = total)
    (hle : total ≤ size) (hcomma : ∀ text ∈ texts, ',' ∉ text)
    (hreads : List.Forall₂ Reads (texts.filter fun s => trimSpace s ≠ []) specs) :
    collect size total ranges texts =
      answerAll size (ranges ++ specs.filterMap (Spec.range size)) := by
  induction texts generalizing total ranges specs with
  | nil =>
    rw [List.filter_nil, List.forall₂_nil_left_iff] at hreads
    rw [collect, hreads, List.filterMap_nil, List.append_nil, answerAll, htotal,
      if_neg (not_lt.mpr hle)]
  | cons text texts ih =>
    have hcomma' : ∀ text ∈ texts, ',' ∉ text := fun x hx => hcomma x (List.mem_cons_of_mem _ hx)
    by_cases hblank : trimSpace text = []
    · rw [List.filter_cons_of_neg (by simpa using hblank)] at hreads
      rw [collect, if_pos hblank, ih htotal hle hcomma' hreads]
    · rw [List.filter_cons_of_pos (by simpa using hblank)] at hreads
      obtain ⟨spec, rest, hread, hrest, rfl⟩ := List.forall₂_cons_left_iff.mp hreads
      rw [collect, if_neg hblank, answer_of_reads hread (hcomma _ List.mem_cons_self) hsize,
        Spec.answer]
      cases hrange : spec.range size with
      | none =>
        rw [List.filterMap_cons_none hrange]
        exact ih htotal hle hcomma' hrest
      | some ra =>
        rw [List.filterMap_cons_some hrange]
        by_cases hlong : ra.length > size - total
        · have hnonneg := totalLength_nonneg (ranges_within hsize hrest)
          have hover : totalLength (ranges ++ ra :: rest.filterMap (Spec.range size)) > size := by
            simp only [totalLength, List.map_append, List.map_cons, List.sum_append, List.sum_cons]
              at htotal hnonneg ⊢
            omega
          simp only [answerAll, if_pos hlong, if_pos hover]
        · simp only [if_neg hlong]
          rw [ih (by rw [totalLength_concat, htotal]) (by omega) hcomma' hrest]
          simp

/-- Without signs, the loop answers with ranges, or that there are none, to well-formed specs. -/
theorem reads_of_collect (hsign : ∀ text ∈ texts, Signless text)
    (hok : collect size total ranges texts ≠ .ok [])
    (hother : ∀ msg, collect size total ranges texts ≠ .error (.other msg)) :
    ∃ specs, List.Forall₂ Reads (texts.filter fun s => trimSpace s ≠ []) specs := by
  induction texts generalizing total ranges with
  | nil => exact ⟨[], by simp⟩
  | cons text texts ih =>
    have hsign' : ∀ text ∈ texts, Signless text := fun x hx => hsign x (List.mem_cons_of_mem _ hx)
    by_cases hblank : trimSpace text = []
    · rw [collect, if_pos hblank] at hok hother
      obtain ⟨specs, hspecs⟩ := ih hsign' hok hother
      exact ⟨specs, by rwa [List.filter_cons_of_neg (by simpa using hblank)]⟩
    · have hread : ∃ spec, Reads text spec := by
        refine reads_of_parseSingleRange size (hsign _ List.mem_cons_self) fun msg hmsg => ?_
        refine hother msg ?_
        rw [collect, if_neg hblank, hmsg]
      obtain ⟨spec, hspec⟩ := hread
      have hrest : ∃ specs, List.Forall₂ Reads (texts.filter fun s => trimSpace s ≠ []) specs := by
        rw [collect, if_neg hblank] at hok hother
        cases hsingle : parseSingleRange ("bytes=".toList ++ text) size with
        | error err =>
          cases err with
          | noOverlap =>
            simp only [hsingle] at hok hother
            exact ih hsign' hok hother
          | other msg =>
            simp only [hsingle] at hother
            exact absurd rfl (hother msg)
        | ok ra =>
          simp only [hsingle] at hok hother
          by_cases hlong : ra.length > size - total
          · rw [if_pos hlong] at hok
            exact absurd rfl hok
          · simp only [if_neg hlong] at hok hother
            exact ih hsign' hok hother
      obtain ⟨specs, hspecs⟩ := hrest
      refine ⟨spec :: specs, ?_⟩
      rw [List.filter_cons_of_pos (by simpa using hblank)]
      exact List.Forall₂.cons hspec hspecs

/-- A header of specs is answered as they say. -/
theorem parseRanges_of_lists (hsize : 0 < size) (h : Lists header specs) :
    parseRanges header size = answerAll size (specs.filterMap (Spec.range size)) := by
  obtain ⟨hunit, hcount, hreads⟩ := h
  simp only [parseRanges, hunit, not_true_eq_false, if_false, ge_iff_le, if_neg (not_le.mpr hcount)]
  have hstart : totalLength [] = 0 := rfl
  rw [collect_of_reads hsize hstart hsize.le (fun text htext => (mem_split htext).1) hreads,
    List.nil_append]

/-- A header without signs that is not answered so is not one of specs. -/
theorem lists_of_parseRanges (size : ℤ) (hsign : Signless header)
    (hok : parseRanges header size ≠ .ok [])
    (hother : ∀ msg, parseRanges header size ≠ .error (.other msg)) :
    ∃ specs, Lists header specs := by
  by_cases hunit : hasBytesUnit (trimSpace header) = true
  · by_cases hcount : (trimSpace header).count ',' ≥ 32
    · simp [parseRanges, hunit, hcount] at hok
    · simp only [parseRanges, hunit, not_true_eq_false, if_false, if_neg hcount] at hok hother
      have hsigns : ∀ text ∈ Text.split ',' ((trimSpace header).drop 6), Signless text := by
        intro text htext
        have hinfix : trimSpace header <:+: header := by
          obtain ⟨a, b, -, -, hs⟩ := exists_trim (p := isSpace) header
          exact ⟨a, b, hs.symm⟩
        exact hsign.infix
          (((mem_split htext).2.trans (List.drop_suffix 6 _).isInfix).trans hinfix)
      obtain ⟨specs, hspecs⟩ := reads_of_collect hsigns hok hother
      exact ⟨specs, hunit, not_le.mp hcount, hspecs⟩
  · exact absurd (by simp [parseRanges, hunit]) (hother "invalid range")

theorem parseRanges_within (hsize : 0 < size) (h : parseRanges header size = .ok out) :
    (∀ ra ∈ out, Within size ra) ∧ totalLength out ≤ size := by
  simp only [parseRanges] at h
  split_ifs at h
  · rw [← Except.ok.inj h]
    exact ⟨by simp, hsize.le⟩
  · have hstart : totalLength [] = 0 := rfl
    exact collect_within hsize hstart hsize.le (by simp) h

/-- The ranges returned are ranges of the file, together no longer than it. To a header without
signs they are the specs that overlap the file, in order, or there is no such spec. -/
theorem parseRanges_spec (hsize : 0 < size) :
    (∀ ranges, parseRanges header size = .ok ranges →
      (∀ ra ∈ ranges, Within size ra) ∧ totalLength ranges ≤ size) ∧
    (Signless header →
      (∀ ranges ≠ [], parseRanges header size = .ok ranges ↔ ∃ specs, Lists header specs ∧
        ranges = specs.filterMap (Spec.range size) ∧ totalLength ranges ≤ size) ∧
      (parseRanges header size = .error .noOverlap ↔
        ∃ specs, Lists header specs ∧ ∀ spec ∈ specs, spec.range size = none)) := by
  refine ⟨fun ranges h => parseRanges_within hsize h, fun hsign => ⟨fun ranges hne => ?_, ?_⟩⟩
  · constructor
    · intro h
      obtain ⟨specs, hspecs⟩ := lists_of_parseRanges size hsign (by simp [h, hne])
        (by simp [h])
      have hanswer := parseRanges_of_lists hsize hspecs
      rw [h, answerAll] at hanswer
      split_ifs at hanswer
      · exact absurd (Except.ok.inj hanswer) hne
      · exact ⟨specs, hspecs, Except.ok.inj hanswer, (parseRanges_within hsize h).2⟩
    · rintro ⟨specs, hspecs, hranges, hle⟩
      rw [parseRanges_of_lists hsize hspecs, ← hranges, answerAll, if_neg (not_lt.mpr hle),
        if_neg hne]
  · constructor
    · intro h
      obtain ⟨specs, hspecs⟩ := lists_of_parseRanges size hsign (by simp [h]) (by simp [h])
      have hanswer := parseRanges_of_lists hsize hspecs
      rw [h, answerAll] at hanswer
      split_ifs at hanswer with hlong hnil
      exact ⟨specs, hspecs, List.filterMap_eq_nil_iff.mp hnil⟩
    · rintro ⟨specs, hspecs, hnone⟩
      have hnil := List.filterMap_eq_nil_iff.mpr hnone
      have htotal : totalLength [] ≤ size := hsize.le
      rw [parseRanges_of_lists hsize hspecs, hnil, answerAll, if_neg (not_lt.mpr htotal),
        if_pos rfl]

end Lists

theorem parseRanges_spec_ten :
    ∃ specs, Lists "bytes=2-5".toList specs ∧
      [⟨2, 5⟩] = specs.filterMap (Spec.range 10) ∧ totalLength [⟨2, 5⟩] ≤ 10 := by
  have hsign : Signless "bytes=2-5".toList := by
    refine ⟨by decide, fun a w b h => ?_⟩
    have hcount := congrArg (List.count '-') h
    have hone : List.count '-' "bytes=2-5".toList = 1 := by decide
    simp only [hone, List.count_append, List.count_cons_self] at hcount
    omega
  exact (((parseRanges_spec (by decide)).2 hsign).1 [⟨2, 5⟩] (by simp)).mp (by decide)

/-- Of 33 specs that are all well formed, none overlaps the file, and the answer is a list. -/
theorem no_overlap_not_reported :
    ∃ header : Text, hasBytesUnit header ∧
      (∀ text ∈ Text.split ',' (header.drop 6), ∃ spec, Reads text spec ∧ spec.range 5 = none) ∧
      parseRanges header 5 = .ok [] := by
  have hread : Reads "9-".toList (.starting 9) :=
    .starting (a := []) (s := ['9']) (b := []) (c := [])
      ⟨by simp, fun c hc => by rw [List.mem_singleton.mp hc]; rfl, by decide, by decide⟩
      (by simp [Blank]) (by simp [Blank])
      (by simp [Blank])
  refine ⟨"bytes=".toList ++ Text.join ',' (List.replicate 33 "9-".toList), by decide, ?_, by decide⟩
  intro text htext
  have hsplit : Text.split ',' (("bytes=".toList ++
      Text.join ',' (List.replicate 33 "9-".toList)).drop 6) = List.replicate 33 "9-".toList := by
    decide
  rw [hsplit] at htext
  rw [List.eq_of_mem_replicate htext]
  exact ⟨.starting 9, hread, by decide⟩

end AllInOneBackup.LitePan.Playback.Range
