import AllInOneBackup.Data.TextSource
import AllInOneBackup.Data.Utf8

/-! `_StreamJsonArrayReader`, which reads a JSON file in chunks and decodes one value after another
from what it has, and `open_library_stream`, which reads a library from it. `raw_decode` is a
parameter; that a longer text begins with the same value is asked for all values but the numbers. -/

namespace AllInOneBackup.Cloud123.Library.Stream

open Data

/-! ### The reader -/

/-- `json.JSONDecoder().raw_decode`, on the text from the position on. A number may go on where the
text does. -/
structure JsonDecoder (V : Type) where
  rawDecode : Str → Option (V × ℕ)
  isNumber : V → Bool
  length_le : ∀ s v n, rawDecode s = some (v, n) → n ≤ s.length
  stable : ∀ s v n t, rawDecode s = some (v, n) → isNumber v = false →
    rawDecode (s ++ t) = some (v, n)
  number : ∀ s v n t, rawDecode s = some (v, n) → isNumber v = true →
    ∃ v' n', rawDecode (s ++ t) = some (v', n') ∧ isNumber v' = true

/-- `_StreamJsonArrayReader`; `unread` is what is left of the file, and `decoder` an unfinished
sequence of UTF-8. -/
structure Reader where
  unread : Bytes
  decoder : Option Utf8.Pending := none
  buf : Str := []
  pos : ℕ := 0
  eof : Bool := false

/-- What an incremental decoder makes of some bytes. -/
def decodeChunk (p : Option Utf8.Pending) : Bytes → Str × Option Utf8.Pending
  | [] => ([], p)
  | b :: bs =>
    let first := Utf8.step b.toNat p
    let rest := decodeChunk first.2 bs
    (first.1 ++ rest.1, rest.2)

/-- `" \t\r\n"`. -/
def isJsonSpace (c : CodePoint) : Bool := c ∈ str " \t\r\n"

def trimAt : ℕ := 2 ^ 20

namespace Reader

variable {V : Type} (D : JsonDecoder V) (chunkSize : ℕ) (r : Reader)

def readMore : Reader × Bool :=
  if r.eof then (r, false)
  else
    let data := r.unread.take chunkSize
    if data = [] then
      ({ r with buf := r.buf ++ Utf8.decodeFrom r.decoder [], decoder := none, eof := true }, false)
    else
      let chunk := decodeChunk r.decoder data
      ({ r with
        unread := r.unread.drop chunkSize, decoder := chunk.2, buf := r.buf ++ chunk.1 }, true)

def trim : Reader := if trimAt ≤ r.pos then { r with buf := r.buf.drop r.pos, pos := 0 } else r

def skipSpace : Reader :=
  { r with pos := r.pos + ((r.buf.drop r.pos).takeWhile isJsonSpace).length }

/-- The loop of `peek`; no run of it is longer than what is unread. -/
def peekFrom : ℕ → Reader → Reader × Option CodePoint
  | 0, r => (r, none)
  | fuel + 1, r =>
    let r := r.skipSpace
    match r.buf[r.pos]? with
    | some c => (r, some c)
    | none =>
      let more := r.readMore chunkSize
      if more.2 then peekFrom fuel more.1 else (more.1, none)

def peek : Reader × Option CodePoint := peekFrom chunkSize (r.unread.length + 1) r

/-- `_pos += 1`. -/
def advance : Reader := { r with pos := r.pos + 1 }

/-- The loop of `read_value`. -/
def readFrom : ℕ → Reader → Option (Reader × V)
  | 0, _ => none
  | fuel + 1, r =>
    match D.rawDecode (r.buf.drop r.pos) with
    | some (value, n) => some (trim { r with pos := r.pos + n }, value)
    | none =>
      let more := r.readMore chunkSize
      if more.2 then readFrom fuel more.1 else none

def readValue : Option (Reader × V) :=
  let r := (r.peek chunkSize).1
  readFrom D chunkSize (r.unread.length + 1) r

end Reader

def chunked {V : Type} (D : JsonDecoder V) (chunkSize : ℕ) : TextSource Reader CodePoint V :=
  ⟨Reader.peek chunkSize, Reader.advance, Reader.readValue D chunkSize⟩

/-- The same on the whole text. -/
def whole {V : Type} (D : JsonDecoder V) : TextSource Str CodePoint V where
  peek s := let s := s.dropWhile isJsonSpace; (s, s.head?)
  advance s := s.drop 1
  read s :=
    let s := s.dropWhile isJsonSpace
    (D.rawDecode s).map fun x => (s.drop x.2, x.1)

/-! ### The text that a reader has left -/

/-- No sequence is unfinished at the end of the file. -/
def Complete (r : Reader) : Prop := (decodeChunk r.decoder r.unread).2 = none

def view (r : Reader) : Str :=
  r.buf.drop r.pos ++ if r.eof then [] else Utf8.decodeFrom r.decoder r.unread

structure Good (r : Reader) : Prop where
  complete : r.eof = false → Complete r
  pos_le : r.eof = false → r.pos ≤ r.buf.length

theorem decodeFrom_append (p : Option Utf8.Pending) (bs bs' : Bytes) :
    Utf8.decodeFrom p (bs ++ bs') =
      (decodeChunk p bs).1 ++ Utf8.decodeFrom (decodeChunk p bs).2 bs' := by
  induction bs generalizing p with
  | nil => rfl
  | cons b bs ih =>
    simp only [List.cons_append, Utf8.decodeFrom, decodeChunk, ih, List.append_assoc]

theorem decodeChunk_append (p : Option Utf8.Pending) (bs bs' : Bytes) :
    (decodeChunk p (bs ++ bs')).2 = (decodeChunk (decodeChunk p bs).2 bs').2 := by
  induction bs generalizing p with
  | nil => rfl
  | cons b bs ih => simp only [List.cons_append, decodeChunk, ih]

section View

variable {V : Type} {D : JsonDecoder V} {chunkSize : ℕ} {r : Reader}

/-- Reading more does not change what is left. -/
theorem readMore_spec (hsize : 0 < chunkSize) (h : Good r) :
    Good (r.readMore chunkSize).1 ∧ view (r.readMore chunkSize).1 = view r ∧
      (r.readMore chunkSize).1.pos = r.pos ∧
      if (r.readMore chunkSize).2 then
        (r.readMore chunkSize).1.unread.length < r.unread.length
      else view r = r.buf.drop r.pos ∧ (r.readMore chunkSize).1.eof = true := by
  rcases Bool.eq_false_or_eq_true r.eof with heof | hfile
  · have heq : r.readMore chunkSize = (r, false) := if_pos heof
    rw [heq, if_neg Bool.false_ne_true]
    refine ⟨h, rfl, rfl, ?_, heof⟩
    rw [view, if_pos heof, List.append_nil]
  have hcomplete := h.complete hfile
  have hle := h.pos_le hfile
  have hview : view r = r.buf.drop r.pos ++ Utf8.decodeFrom r.decoder r.unread := by
    rw [view, hfile, if_neg Bool.false_ne_true]
  by_cases hdata : r.unread.take chunkSize = []
  · have heq : r.readMore chunkSize = ({ r with
        buf := r.buf ++ Utf8.decodeFrom r.decoder [], decoder := none, eof := true }, false) := by
      unfold Reader.readMore
      rw [hfile]
      exact if_pos hdata
    have hunread : r.unread = [] :=
      (List.take_eq_nil_iff.mp hdata).resolve_left (Nat.pos_iff_ne_zero.mp hsize)
    have hflush : Utf8.decodeFrom r.decoder [] = [] := by
      rw [Complete, hunread] at hcomplete
      rw [show r.decoder = none from hcomplete]
      rfl
    rw [heq, if_neg Bool.false_ne_true, hview, hunread, hflush]
    refine ⟨⟨fun hnot => (nomatch hnot), fun hnot => (nomatch hnot)⟩, ?_, rfl,
      List.append_nil _, rfl⟩
    simp [view]
  · have heq : r.readMore chunkSize = ({ r with
        unread := r.unread.drop chunkSize
        decoder := (decodeChunk r.decoder (r.unread.take chunkSize)).2
        buf := r.buf ++ (decodeChunk r.decoder (r.unread.take chunkSize)).1 }, true) := by
      unfold Reader.readMore
      rw [hfile]
      exact if_neg hdata
    have hsplit := List.take_append_drop chunkSize r.unread
    rw [heq, if_pos rfl, hview]
    refine ⟨⟨fun _ => ?_, fun _ => ?_⟩, ?_, rfl, ?_⟩
    · rw [Complete, ← hsplit, decodeChunk_append] at hcomplete
      exact hcomplete
    · rw [List.length_append]
      exact hle.trans (Nat.le_add_right _ _)
    · simp only [view, hfile, Bool.false_eq_true, if_false]
      rw [List.drop_append_of_le_length hle, List.append_assoc, ← decodeFrom_append, hsplit]
    · have hne : r.unread ≠ [] := fun hnil => hdata (by rw [hnil, List.take_nil])
      have hpos := List.length_pos_iff.mpr hne
      rw [List.length_drop]
      omega

theorem good_skipSpace (h : Good r) : Good r.skipSpace where
  complete := h.complete
  pos_le hfile := by
    have hle := h.pos_le hfile
    have hspace := (List.takeWhile_prefix isJsonSpace (l := r.buf.drop r.pos)).length_le
    rw [List.length_drop] at hspace
    show r.pos + _ ≤ r.buf.length
    omega

theorem drop_skipSpace : r.skipSpace.buf.drop r.skipSpace.pos =
    (r.buf.drop r.pos).dropWhile isJsonSpace := by
  show r.buf.drop (r.pos + _) = _
  rw [← List.drop_drop]
  nth_rewrite 2 [← List.takeWhile_append_dropWhile (p := isJsonSpace) (l := r.buf.drop r.pos)]
  exact List.drop_left

/-- `peek` comes to the next character of the text that is left. -/
theorem peekFrom_spec (hsize : 0 < chunkSize) (fuel : ℕ) (h : Good r)
    (hfuel : r.unread.length < fuel) :
    Good (Reader.peekFrom chunkSize fuel r).1 ∧
      view (Reader.peekFrom chunkSize fuel r).1 = (view r).dropWhile isJsonSpace ∧
      (Reader.peekFrom chunkSize fuel r).2 = ((view r).dropWhile isJsonSpace).head? ∧
      ((Reader.peekFrom chunkSize fuel r).1.eof = false →
        (Reader.peekFrom chunkSize fuel r).1.pos <
          (Reader.peekFrom chunkSize fuel r).1.buf.length) := by
  induction fuel generalizing r with
  | zero => omega
  | succ fuel ih =>
    have hgood := good_skipSpace h
    have hdrop := drop_skipSpace (r := r)
    have hview : view r.skipSpace = r.skipSpace.buf.drop r.skipSpace.pos ++
        if r.eof then [] else Utf8.decodeFrom r.decoder r.unread := rfl
    unfold Reader.peekFrom
    dsimp only
    cases hchar : r.skipSpace.buf[r.skipSpace.pos]? with
    | some c =>
      obtain ⟨hlt, hget⟩ := List.getElem?_eq_some_iff.mp hchar
      have hcons : r.skipSpace.buf.drop r.skipSpace.pos =
          c :: r.skipSpace.buf.drop (r.skipSpace.pos + 1) := by
        rw [← hget]
        exact List.drop_eq_getElem_cons hlt
      have hspace : (view r).dropWhile isJsonSpace = view r.skipSpace := by
        rw [view, List.dropWhile_append, ← hdrop, hcons, List.isEmpty_cons, hview, hcons]
        rfl
      refine ⟨hgood, hspace.symm, ?_, fun _ => hlt⟩
      rw [hspace, hview, hcons]
      rfl
    | none =>
      have hnil : r.skipSpace.buf.drop r.skipSpace.pos = [] :=
        List.drop_eq_nil_iff.mpr (List.getElem?_eq_none_iff.mp hchar)
      have hspace : (view r).dropWhile isJsonSpace = (view r.skipSpace).dropWhile isJsonSpace := by
        rw [view, List.dropWhile_append, ← hdrop, hnil, hview, hnil]
        rfl
      obtain ⟨hmoreGood, hmoreView, -, hmore⟩ := readMore_spec hsize hgood
      split_ifs with hsome
      · rw [if_pos hsome] at hmore
        have hlen : r.skipSpace.unread.length = r.unread.length := rfl
        obtain ⟨h₁, h₂, h₃, h₄⟩ := ih hmoreGood (by omega)
        rw [hmoreView, ← hspace] at h₂ h₃
        exact ⟨h₁, h₂, h₃, h₄⟩
      · rw [if_neg hsome, hnil] at hmore
        rw [hspace, hmoreView, hmore.1]
        refine ⟨hmoreGood, rfl, rfl, fun hfile => ?_⟩
        rw [hmore.2] at hfile
        cases hfile

theorem view_trim (h : Good r) : Good r.trim ∧ view r.trim = view r := by
  unfold Reader.trim
  split_ifs
  · exact ⟨⟨h.complete, fun _ => Nat.zero_le _⟩, rfl⟩
  · exact ⟨h, rfl⟩

/-- `read_value` decodes what the text that is left begins with, or fails where nothing can be
decoded. -/
theorem readFrom_spec (hsize : 0 < chunkSize) (fuel : ℕ) (h : Good r)
    (hfuel : r.unread.length < fuel)
    (hnumber : ∀ v n, D.rawDecode (view r) = some (v, n) → D.isNumber v = false) :
    match D.rawDecode (view r) with
    | none => Reader.readFrom D chunkSize fuel r = none
    | some (v, n) => ∃ r', Reader.readFrom D chunkSize fuel r = some (r', v) ∧ Good r' ∧
        view r' = (view r).drop n := by
  induction fuel generalizing r with
  | zero => omega
  | succ fuel ih =>
    have hview : view r = r.buf.drop r.pos ++
        if r.eof then [] else Utf8.decodeFrom r.decoder r.unread := rfl
    unfold Reader.readFrom
    cases hdecode : D.rawDecode (r.buf.drop r.pos) with
    | some x =>
      obtain ⟨v, n⟩ := x
      have hkind : D.isNumber v = false := by
        by_contra hnot
        obtain ⟨v', n', hv', hnum⟩ := D.number _ v n
          (if r.eof then [] else Utf8.decodeFrom r.decoder r.unread) hdecode
          (Bool.not_eq_false _ ▸ hnot)
        rw [← hview] at hv'
        rw [hnumber v' n' hv'] at hnum
        cases hnum
      have hwhole := D.stable _ v n
        (if r.eof then [] else Utf8.decodeFrom r.decoder r.unread) hdecode hkind
      have hle := D.length_le _ v n hdecode
      rw [← hview] at hwhole
      rw [hwhole]
      have hgood : Good { r with pos := r.pos + n } := by
        refine ⟨h.complete, fun hfile => ?_⟩
        have hpos := h.pos_le hfile
        rw [List.length_drop] at hle
        show r.pos + n ≤ r.buf.length
        omega
      obtain ⟨htrim, hsame⟩ := view_trim hgood
      refine ⟨_, rfl, htrim, hsame.trans ?_⟩
      rw [hview, List.drop_append_of_le_length hle, List.drop_drop]
      rfl
    | none =>
      obtain ⟨hmoreGood, hmoreView, -, hmore⟩ := readMore_spec hsize h
      dsimp only
      split_ifs with hsome
      · rw [if_pos hsome] at hmore
        have hrest := ih hmoreGood (by omega) (by rwa [hmoreView])
        rwa [hmoreView] at hrest
      · rw [if_neg hsome] at hmore
        rw [hmore.1, hdecode]

theorem view_advance (hpos : r.eof = false → r.pos < r.buf.length) :
    view r.advance = (view r).drop 1 := by
  show r.buf.drop (r.pos + 1) ++ (if r.eof then [] else Utf8.decodeFrom r.decoder r.unread) =
    (r.buf.drop r.pos ++ if r.eof then [] else Utf8.decodeFrom r.decoder r.unread).drop 1
  rcases Bool.eq_false_or_eq_true r.eof with heof | hfile
  · rw [if_pos heof, List.append_nil, List.append_nil, List.drop_drop]
  · have hlt := hpos hfile
    rw [List.drop_append_of_le_length (by rw [List.length_drop]; omega), List.drop_drop]

/-- The reader goes on as if it had the whole text. -/
theorem chunked_simulates (hsize : 0 < chunkSize) :
    TextSource.Simulates (chunked D chunkSize) (whole D) (fun v => D.isNumber v = false)
      (fun r s => Good r ∧ view r = s) where
  peek r s hR := by
    obtain ⟨h, rfl⟩ := hR
    obtain ⟨hgood, hview, hchar, hpos⟩ := peekFrom_spec hsize _ h (Nat.lt_succ_self _)
    refine ⟨hchar, ⟨hgood, hview⟩, ⟨hgood.complete, hpos⟩, ?_⟩
    show view (Reader.peekFrom chunkSize _ r).1.advance = _
    rw [view_advance hpos, hview]
    rfl
  read r s hR hgood := by
    obtain ⟨h, rfl⟩ := hR
    obtain ⟨hpeek, hview, -, -⟩ := peekFrom_spec hsize _ h (Nat.lt_succ_self _)
    have hread := readFrom_spec (D := D) hsize _ hpeek (Nat.lt_succ_self _) fun v n hv => by
      rw [hview] at hv
      exact hgood _ v (by rw [whole]; exact congrArg (Option.map _) hv)
    rw [hview] at hread
    have hwhole : (whole D).read (view r) = (D.rawDecode ((view r).dropWhile isJsonSpace)).map
        fun x => (((view r).dropWhile isJsonSpace).drop x.2, x.1) := rfl
    rw [hwhole]
    cases hdecode : D.rawDecode ((view r).dropWhile isJsonSpace) with
    | none =>
      rw [hdecode] at hread
      exact hread
    | some x =>
      obtain ⟨v, n⟩ := x
      rw [hdecode] at hread
      obtain ⟨r', hr', hgood', hview'⟩ := hread
      exact ⟨r', hr', hgood', hview'⟩

end View

/-! ### `open_library_stream` -/

/-- What is made of the values: `isinstance(v, str)`, `v is True`, the stripped `commonPath`, the
object that a list of three or more becomes, and `_normalize_entry`, which raises where the size is no
number. -/
structure Values (V E : Type) where
  asStr : V → Option Str
  isTrue : V → Bool
  commonPath : V → Str
  asObject : V → V
  normalizeEntry : V → Bool → Except Str (Option E)

/-- The points at which `open_library_stream`, `stream_entries` and `_skip_trailing` read. -/
inductive Point
  | first
  | root
  | key
  | colon (key : Str)
  | value (key : Str)
  | files
  | entries
  | entry
  | trailing
  | trailingKey
  | trailingColon
  | trailingValue
  | finished
  | failed (message : Str)
  | fallback (message : Str)
  deriving DecidableEq

/-- How far the library has been read; `info` is `meta`, and `entries` are those that came out. -/
structure Progress (E : Type) where
  point : Point := .first
  rootFirst : Option CodePoint := none
  commonPath : Str := []
  usesBase62 : Bool := false
  info : Option (Str × Bool) := none
  entries : List E := []
  deriving DecidableEq

def char (c : Char) : CodePoint := Fin.ofNat _ c.toNat

def unexpected (c : Char) (got : Option CodePoint) : Point :=
  .failed (str "JSON 结构不符合预期（期望 " ++ [char c] ++ str "，实际 " ++
    got.elim (str "EOF") ([·]) ++ str "）")

section Client

variable {V E : Type} (W : Values V E)

/-- `expect(c)`. -/
def expect (p : Progress E) (c : Char) (k : Progress E) :
    TextSource.Request CodePoint V (Progress E) :=
  .peek (· = some (char c)) fun got =>
    if got = some (char c) then k else { p with point := unexpected c got }

/-- What follows a colon of the root. -/
def afterColon (p : Progress E) (key : Str) : Progress E :=
  if key = str "files" then { p with point := .files }
  else if key = str "libraries" then
    { p with point := .fallback (str "strm-docker libraries[] 嵌套格式") }
  else { p with point := .value key }

def atValue (p : Progress E) (key : Str) (v : V) : Progress E :=
  if key = str "commonPath" then { p with commonPath := W.commonPath v, point := .root }
  else if key = str "usesBase62EtagsInExport" then
    { p with usesBase62 := W.isTrue v, point := .root }
  else { p with point := .root }

def atEntry (p : Progress E) (v : V) : Progress E :=
  let rawEntry := if p.rootFirst = some (char '[') then W.asObject v else v
  match W.normalizeEntry rawEntry p.usesBase62 with
  | .error message => { p with point := .failed message }
  | .ok none => { p with point := .entries }
  | .ok (some e) => { p with point := .entries, entries := p.entries ++ [e] }

def next (p : Progress E) : TextSource.Request CodePoint V (Progress E) :=
  match p.point with
  | .first => .peek (· ∈ [some (char '['), some (char '\x7b'), none]) fun c =>
    if c = some (char '[') then
      { p with rootFirst := c, info := some ([], false), point := .entries }
    else if c = some (char '\x7b') ∨ c = none then { p with rootFirst := c, point := .root }
    else { p with point := .failed (str "不是 JSON 影库文件") }
  | .root => .peek (· ∈ [some (char '\x7d'), some (char ',')]) fun c =>
    if c = some (char '\x7d') then
      { p with point := .failed (str "不是影库索引文件（缺少 files 字段）") }
    else if c = some (char ',') then p
    else if c = none then
      { p with point := .failed (str "JSON 不完整或已损坏（根对象未闭合）") }
    else { p with point := .key }
  | .key => .read fun v =>
    match W.asStr v with
    | none => { p with point := .failed (str "不是影库索引文件（键名不是字符串）") }
    | some key => { p with point := .colon key }
  | .colon key => expect p ':' (afterColon p key)
  | .value key => .read (atValue W p key)
  | .files => expect p '[' { p with info := some (p.commonPath, p.usesBase62), point := .entries }
  | .entries => .peek (· ∈ [some (char ']'), some (char ',')]) fun c =>
    if c = some (char ']') then
      if p.entries = [] then
        { p with point := .failed (str "不是影库索引文件（files 数组为空）") }
      else { p with point := .trailing }
    else if c = some (char ',') then p
    else if c = none then
      { p with point := .failed (str "JSON 不完整或已损坏（files 数组未闭合）") }
    else { p with point := .entry }
  | .entry => .read (atEntry W p)
  | .trailing => .peek (fun c => p.rootFirst ≠ some (char '[') ∧ c = some (char ',')) fun c =>
    if p.rootFirst = some (char '[') ∨ c = some (char '\x7d') ∨ c = none then
      { p with point := .finished }
    else if c = some (char ',') then p
    else { p with point := .trailingKey }
  | .trailingKey => .read fun _ => { p with point := .trailingColon }
  | .trailingColon => expect p ':' { p with point := .trailingValue }
  | .trailingValue => .read fun _ => { p with point := .trailing }
  | .finished | .failed _ | .fallback _ => .stop

/-- The library is read in chunks just as from the whole text: the same entries, and the same error,
if no value that is read by itself is a number and no sequence is unfinished at the end. -/
theorem openLibraryStream_chunked (D : JsonDecoder V) {chunkSize : ℕ} (hsize : 0 < chunkSize)
    {bytes : Bytes} (hutf8 : Complete { unread := bytes }) (fuel : ℕ)
    (hnumbers : (whole D).Reads (next W) (fun v => D.isNumber v = false) fuel
      (Utf8.decodeReplace bytes) {}) :
    (chunked D chunkSize).run (next W) fuel { unread := bytes } {} =
      (whole D).run (next W) fuel (Utf8.decodeReplace bytes) {} :=
  (chunked_simulates hsize).run_eq (next W) fuel {}
    ⟨⟨fun _ => hutf8, fun _ => Nat.zero_le _⟩, rfl⟩ hnumbers

end Client

/-! ### A library of one entry -/

def filesKey : Str := str "\"files\""

def oneEntry : Str := str "\x7b\"path\":\"a\"\x7d"

/-- A decoder that knows the key and the entry, and the key as a text. -/
def sampleDecoder : JsonDecoder (Option Str) where
  rawDecode s :=
    if filesKey.isPrefixOf s then some (some (str "files"), filesKey.length)
    else if oneEntry.isPrefixOf s then some (none, oneEntry.length)
    else none
  isNumber _ := false
  length_le s v n h := by
    split_ifs at h with hkey hentry
    · cases h
      exact (List.isPrefixOf_iff_prefix.mp hkey).length_le
    · cases h
      exact (List.isPrefixOf_iff_prefix.mp hentry).length_le
  stable s v n t h _ := by
    split_ifs at h with hkey hentry
    · rw [if_pos (List.isPrefixOf_iff_prefix.mpr
        ((List.isPrefixOf_iff_prefix.mp hkey).trans (List.prefix_append s t))), h]
    · obtain ⟨rest, rfl⟩ := List.isPrefixOf_iff_prefix.mp hentry
      have hnot : ¬filesKey.isPrefixOf ((oneEntry ++ rest) ++ t) := by
        simp [filesKey, oneEntry, str]
      rw [if_neg hnot, if_pos (List.isPrefixOf_iff_prefix.mpr
        ((List.prefix_append oneEntry rest).trans (List.prefix_append _ t))), h]
  number s v n t _ h := by cases h

def sampleValues : Values (Option Str) Str where
  asStr v := v
  isTrue _ := false
  commonPath _ := []
  asObject v := v
  normalizeEntry v _ := match v with
    | none => .ok (some (str "a"))
    | some _ => .ok none

def sampleFile : Bytes :=
  (str "\x7b\"files\": [\x7b\"path\":\"a\"\x7d]\x7d").map fun c => UInt8.ofNat c.val

theorem openLibraryStream_chunked_sample :
    (whole sampleDecoder).run (next sampleValues) 12 (Utf8.decodeReplace sampleFile) {} =
      .stopped
        { point := .finished
          rootFirst := some (char '\x7b')
          info := some ([], false)
          entries := [str "a"] } ∧
    (chunked sampleDecoder 3).run (next sampleValues) 12 { unread := sampleFile } {} =
      (whole sampleDecoder).run (next sampleValues) 12 (Utf8.decodeReplace sampleFile) {} :=
  ⟨by decide, openLibraryStream_chunked sampleValues sampleDecoder (by decide)
    (show Complete { unread := sampleFile } from rfl) 12
    (TextSource.reads_of_forall _ _ (fun _ => rfl) _ _ _)⟩

end AllInOneBackup.Cloud123.Library.Stream
