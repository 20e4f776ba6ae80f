import AllInOneBackup.Data.Trim

/-! The names of `.strm` files. A name is made safe by putting underscores for some characters, none
of them white space, so that trimming comes to the same before and after. -/

namespace AllInOneBackup.LitePan.Strm

open Data Data.Text

/-! ### `writer.go` -/

/-- `strmSafeNameRepl`, of one character. -/
def strmSafeNameRepl (c : Char) : Char :=
  if c ∈ ['/', '\\', ':', '*', '?', '"', '<', '>', '|'] then '_' else c

/-- What `filepath.Ext` looks for: the last dot, behind the last slash. -/
def noMark (c : Char) : Bool := c ≠ '.' && c ≠ '/'

/-- `filepath.Ext`. -/
def ext (name : Text) : Text :=
  if (name.rdropWhile noMark).getLast? = some '.' then '.' :: name.rtakeWhile noMark else []

/-- `strings.TrimSuffix`, of a suffix. -/
def trimSuffix (s suffix : Text) : Text := s.take (s.length - suffix.length)

def mediaStem (name : Text) : Text := if ext name = [] then name else trimSuffix name (ext name)

def safeStem (name : Text) : Text :=
  if trimSpace name = [] then ['_']
  else
    let name := name.map strmSafeNameRepl
    if name = [] ∨ name = ['.'] ∨ name = ['.', '.'] then ['_'] else name

def safeName (name : Text) : Text := safeStem (trimSpace name)

/-- `strings.EqualFold(s, ".iso")`; besides the letters of ASCII, the long s folds to an s. -/
def equalFoldIso : Text → Bool
  | [dot, i, s, o] => dot = '.' && (i ∈ ['i', 'I']) && (s ∈ ['s', 'S', 'ſ']) && (o ∈ ['o', 'O'])
  | _ => false

def isISOFileName (fileName : Text) : Bool := equalFoldIso (ext (trimSpace fileName))

def localStrmFileName (fileName : Text) (isoFilenameEnabled : Bool) : Text :=
  if isoFilenameEnabled && isISOFileName fileName then safeName fileName ++ ".strm".toList
  else safeStem (mediaStem fileName) ++ ".strm".toList

/-- `SafeDirSegments`. -/
def safeDirSegments (raw : Text) : List Text :=
  let raw := (trimSpace raw).map fun c => if c = '\\' then '/' else c
  let raw := trim (· = '/') raw
  if raw = [] then []
  else ((Text.split '/' raw).map trimSpace).filterMap fun seg =>
    if seg = [] ∨ seg = ['.'] ∨ seg = ['.', '.'] then none else some (safeName seg)

/-- The segments that `filepath.Join` gets. -/
def localSegments (outputFolder : Text) (relDirs : List Text) (fileName : Text)
    (isoFilenameEnabled : Bool) : List Text :=
  safeDirSegments outputFolder ++ relDirs.map safeName ++
    [localStrmFileName fileName isoFilenameEnabled]

/-- `LocalRelPath`; `Clean` has nothing to do in a path of such segments. -/
def localRelPath (outputFolder : Text) (relDirs : List Text) (fileName : Text)
    (isoFilenameEnabled : Bool) : Text :=
  Text.join '/' (localSegments outputFolder relDirs fileName isoFilenameEnabled)

example : localRelPath "a/b".toList ["c:".toList] " Movie.ISO".toList true =
    "a/b/c_/Movie.ISO.strm".toList := by decide

/-! ### Safe names -/

section Names

variable {name name' : Text}

theorem isSpace_repl (c : Char) : isSpace (strmSafeNameRepl c) = isSpace c := by
  unfold strmSafeNameRepl
  split_ifs with h
  · simp only [List.mem_cons, List.not_mem_nil, or_false] at h
    rcases h with rfl | rfl | rfl | rfl | rfl | rfl | rfl | rfl | rfl <;> decide
  · rfl

theorem repl_repl (c : Char) : strmSafeNameRepl (strmSafeNameRepl c) = strmSafeNameRepl c := by
  by_cases h : c ∈ ['/', '\\', ':', '*', '?', '"', '<', '>', '|']
  · have hc : strmSafeNameRepl c = '_' := if_pos h
    rw [hc]
    decide
  · have hc : strmSafeNameRepl c = c := if_neg h
    rw [hc, hc]

theorem repl_ne_slash (c : Char) : strmSafeNameRepl c ≠ '/' := by
  unfold strmSafeNameRepl
  split_ifs with h
  · decide
  · rintro rfl
    exact h (by decide)

theorem trimSpace_map (name : Text) :
    trimSpace (name.map strmSafeNameRepl) = (trimSpace name).map strmSafeNameRepl :=
  trim_map strmSafeNameRepl isSpace_repl name

theorem safeStem_map (name : Text) : safeStem (name.map strmSafeNameRepl) = safeStem name := by
  have hcomp : strmSafeNameRepl ∘ strmSafeNameRepl = strmSafeNameRepl := funext repl_repl
  rw [safeStem, safeStem, trimSpace_map, List.map_map, hcomp]
  simp only [List.map_eq_nil_iff]

theorem safeName_map (name : Text) : safeName (name.map strmSafeNameRepl) = safeName name := by
  rw [safeName, trimSpace_map, safeStem_map, safeName]

/-- A single character that is no white space is its own trimming. -/
theorem safeName_dots (h : name.map strmSafeNameRepl = ['.'] ∨
    name.map strmSafeNameRepl = ['.', '.']) : safeName name = ['_'] := by
  rw [← safeName_map]
  rcases h with h | h <;> rw [h] <;> decide

/-- Trimming may come after. -/
theorem safeName_safeStem (name : Text) : safeName (safeStem name) = safeName name := by
  have hunderscore : safeName ['_'] = ['_'] := by decide
  rw [safeStem]
  split_ifs with hblank
  · rw [hunderscore, safeName, hblank]
    decide
  · simp only
    split_ifs with hdots
    · rw [hunderscore]
      rcases hdots with hnil | hdots
      · rw [List.map_eq_nil_iff.mp hnil] at hblank
        exact absurd rfl hblank
      · exact (safeName_dots hdots).symm
    · exact safeName_map name

/-- What is written under the same stem is grouped under the same name. -/
theorem safeName_eq_of_safeStem_eq (h : safeStem name = safeStem name') :
    safeName name = safeName name' := by
  rw [← safeName_safeStem name, h, safeName_safeStem]

theorem slash_not_mem_safeStem (name : Text) : '/' ∉ safeStem name := by
  rw [safeStem]
  split_ifs
  · decide
  · simp only
    split_ifs
    · decide
    · intro h
      obtain ⟨c, -, hc⟩ := List.mem_map.mp h
      exact repl_ne_slash c hc

end Names

/-! ### Names of ISO files -/

section Iso

variable {name name' front tail : Text}

/-- A name with an extension. -/
theorem mediaStem_append (front : Text) (htail : ∀ c ∈ tail, noMark c) :
    ext (front ++ '.' :: tail) = '.' :: tail ∧ mediaStem (front ++ '.' :: tail) = front := by
  have hreverse : ∀ c ∈ tail.reverse, noMark c = true := fun c hc => htail c (List.mem_reverse.mp hc)
  have hrev : (front ++ '.' :: tail).reverse = tail.reverse ++ '.' :: front.reverse := by simp
  have htake : (front ++ '.' :: tail).rtakeWhile noMark = tail := by
    rw [List.rtakeWhile, hrev, List.takeWhile_append_of_pos hreverse,
      List.takeWhile_cons_of_neg (by decide), List.append_nil, List.reverse_reverse]
  have hdrop : (front ++ '.' :: tail).rdropWhile noMark = front ++ ['.'] := by
    rw [List.rdropWhile, hrev, List.dropWhile_append_of_pos hreverse,
      List.dropWhile_cons_of_neg (by decide), List.reverse_cons, List.reverse_reverse]
  have hext : ext (front ++ '.' :: tail) = '.' :: tail := by
    rw [ext, hdrop, htake, if_pos List.getLast?_concat]
  refine ⟨hext, ?_⟩
  have hlength : (front ++ '.' :: tail).length - ('.' :: tail).length = front.length := by simp
  rw [mediaStem, hext, if_neg (List.cons_ne_nil _ _), trimSuffix, hlength, List.take_left]

theorem exists_ext (h : ext name ≠ []) :
    ∃ front tail, name = front ++ '.' :: tail ∧ (∀ c ∈ tail, noMark c) ∧ ext name = '.' :: tail := by
  unfold ext at h ⊢
  split_ifs at h ⊢ with hlast
  · refine ⟨(name.rdropWhile noMark).dropLast, name.rtakeWhile noMark, ?_,
      fun c hc => List.mem_rtakeWhile_imp hc, rfl⟩
    have hdot := List.dropLast_append_getLast? '.' hlast
    have hjoin : name.rdropWhile noMark ++ name.rtakeWhile noMark = name :=
      List.rdropWhile_append_rtakeWhile
    rw [← hdot, List.append_assoc] at hjoin
    exact hjoin.symm
  · exact absurd rfl h

theorem noMark_of_isSpace {c : Char} (h : isSpace c) : noMark c := by
  unfold noMark
  by_contra hmark
  have hor : c = '.' ∨ c = '/' := by
    by_contra hnot
    rw [not_or] at hnot
    exact hmark (by simp [hnot.1, hnot.2])
  rcases hor with rfl | rfl <;> exact absurd h (by decide)

/-- The trimmed name of an ISO file ends with four characters more than its stem has, but for white
space. -/
theorem exists_iso (h : isISOFileName name) :
    ∃ front tail, trimSpace name = front ++ '.' :: tail ∧ tail.length = 3 ∧
      safeName (mediaStem name) = safeName front := by
  have hne : ext (trimSpace name) ≠ [] := by
    intro hnil
    rw [isISOFileName, hnil] at h
    cases h
  obtain ⟨front, tail, htrim, htail, hext⟩ := exists_ext hne
  obtain ⟨a, b, ha, hb, hname⟩ := exists_trim (p := isSpace) name
  refine ⟨front, tail, htrim, ?_, ?_⟩
  · rw [isISOFileName, hext] at h
    unfold equalFoldIso at h
    split at h
    · rename_i heq
      rw [(List.cons.inj heq).2]
      rfl
    · cases h
  · have hcut : name = (a ++ front) ++ '.' :: (tail ++ b) := by
      rw [hname, show trim isSpace name = trimSpace name from rfl, htrim]
      simp
    have hmarks : ∀ c ∈ tail ++ b, noMark c := by
      intro c hc
      rcases List.mem_append.mp hc with hc | hc
      · exact htail c hc
      · exact noMark_of_isSpace (hb c hc)
    have hstem := (mediaStem_append (a ++ front) hmarks).2
    rw [← hcut] at hstem
    have hsurround := trim_surround (s := front) (b := []) ha (by simp)
    rw [List.append_nil] at hsurround
    rw [hstem, safeName, safeName, trimSpace, hsurround, trimSpace]

/-- ISO files that are written under the same name are grouped under the same name. -/
theorem safeName_mediaStem_eq_of_iso (h : isISOFileName name) (h' : isISOFileName name')
    (heq : safeName name = safeName name') :
    safeName (mediaStem name) = safeName (mediaStem name') := by
  have hmap : ∀ {name : Text}, isISOFileName name → safeName name = (trimSpace name).map strmSafeNameRepl := by
    intro name h
    obtain ⟨front, tail, htrim, htail, -⟩ := exists_iso h
    have hlength : ((trimSpace name).map strmSafeNameRepl).length = front.length + 4 := by
      rw [htrim]
      simp [htail]
    have hblank : trimSpace (trimSpace name) ≠ [] := by
      intro hnil
      have hdot := trimSpace_eq_nil_iff.mp hnil '.' (by rw [htrim]; simp)
      exact absurd hdot (by decide)
    rw [safeName, safeStem, if_neg hblank]
    simp only
    rw [if_neg]
    rintro (hnil | hdot | hdots)
    · rw [hnil] at hlength
      simp at hlength
    · rw [hdot] at hlength
      simp at hlength
    · rw [hdots] at hlength
      simp at hlength
  obtain ⟨front, tail, htrim, htail, hstem⟩ := exists_iso h
  obtain ⟨front', tail', htrim', htail', hstem'⟩ := exists_iso h'
  rw [hmap h, hmap h', htrim, htrim', List.map_append, List.map_append] at heq
  have hfront := (List.append_inj' heq (by simp [htail, htail'])).1
  rw [hstem, hstem', ← safeName_map front, hfront, safeName_map]

end Iso

/-! ### Paths -/

section Paths

variable {out : Text} {relDirs relDirs' : List Text} {name name' : Text} {iso : Bool}

theorem slash_not_mem_localStrmFileName : '/' ∉ localStrmFileName name iso := by
  have hsuffix : '/' ∉ ".strm".toList := by decide
  rw [localStrmFileName]
  split_ifs <;> rw [List.mem_append, not_or] <;> exact ⟨slash_not_mem_safeStem _, hsuffix⟩

theorem slash_not_mem_localSegments : ∀ seg ∈ localSegments out relDirs name iso, '/' ∉ seg := by
  intro seg hseg
  rw [localSegments, List.mem_append, List.mem_append, List.mem_singleton] at hseg
  rcases hseg with (hseg | hseg) | rfl
  · unfold safeDirSegments at hseg
    simp only at hseg
    split_ifs at hseg
    · cases hseg
    · obtain ⟨raw, -, hraw⟩ := List.mem_filterMap.mp hseg
      split_ifs at hraw
      rw [← Option.some.inj hraw]
      exact slash_not_mem_safeStem _
  · obtain ⟨dir, -, rfl⟩ := List.mem_map.mp hseg
    exact slash_not_mem_safeStem _
  · exact slash_not_mem_localStrmFileName

/-- A path is told by its directories and its file name. -/
theorem localRelPath_eq_iff :
    localRelPath out relDirs name iso = localRelPath out relDirs' name' iso ↔
      relDirs.map safeName = relDirs'.map safeName ∧
        localStrmFileName name iso = localStrmFileName name' iso := by
  have hsplit : ∀ (relDirs : List Text) (name : Text),
      (localRelPath out relDirs name iso).splitOn '/' = localSegments out relDirs name iso :=
    fun relDirs name => List.splitOn_intercalate '/' slash_not_mem_localSegments
      (by simp [localSegments])
  constructor
  · intro heq
    have hsegments := congrArg (List.splitOn '/') heq
    rw [hsplit, hsplit, localSegments, localSegments] at hsegments
    have hparts := List.append_inj' hsegments rfl
    exact ⟨List.append_cancel_left hparts.1, List.singleton_inj.mp hparts.2⟩
  · rintro ⟨hdirs, hname⟩
    rw [localRelPath, localRelPath, localSegments, localSegments, hdirs, hname]

end Paths

end AllInOneBackup.LitePan.Strm
