import AllInOneBackup.Data.Sweep
import AllInOneBackup.LitePan.Strm.Names
import Mathlib.Algebra.GroupWithZero.Nat

/-! `removeStaleStrmAndSameStemSidecars`, on the entries of a directory. What it removes is told by
one lemma, and no `.strm` file has the name of a sidecar. -/

namespace AllInOneBackup.LitePan.Strm

open Data Data.Text

/-- What `unicode` knows of the characters beyond ASCII: the lower case, and a character for each
orbit of `SimpleFold`. Only the long s and the sign for kelvin fold to letters of ASCII. -/
structure UnicodeCase where
  lowerRune : Char → Char
  orbit : Char → Char
  orbit_beyond : ∀ c, 128 ≤ (orbit c).toNat

namespace UnicodeCase

variable (u : UnicodeCase)

/-- `unicode.ToLower`. -/
def toLower (c : Char) : Char := if c.toNat < 128 then c.toLower else u.lowerRune c

/-- Two characters are equal under folding when these are equal. -/
def fold (c : Char) : Char :=
  if c.toNat < 128 then c.toLower
  else if c = 'ſ' then 's'
  else if c = '\u212A' then 'k'
  else u.orbit c

/-- `strings.ToLower`. -/
def lower (s : Text) : Text := s.map u.toLower

/-- `strings.EqualFold`. -/
def equalFold (s t : Text) : Bool := s.map u.fold = t.map u.fold

theorem toLower_of_fold {c d : Char} (hd : d.toNat < 128) (hs : d ≠ 's') (hk : d ≠ 'k')
    (h : u.fold c = d) : u.toLower c = d := by
  unfold fold at h
  split_ifs at h with hc hlong hkelvin
  · rw [toLower, if_pos hc, h]
  · exact absurd h.symm hs
  · exact absurd h.symm hk
  · have hbeyond := u.orbit_beyond c
    rw [h] at hbeyond
    omega

end UnicodeCase

/-- The letters of ASCII alone. -/
def asciiCase : UnicodeCase := ⟨id, fun _ => 'ſ', fun _ => by decide⟩

/-! ### `scanner.go` -/

structure Entry where
  name : Text
  isDir : Bool
  deriving DecidableEq

/-- `len` of a string. -/
def len (s : Text) : ℕ := (s.map Char.utf8Size).sum

def imageExts : List Text :=
  [".jpg", ".jpeg", ".png", ".webp", ".bmp", ".gif"].map String.toList

def artworkSuffixes : List Text :=
  ["", "-poster", "-thumb", "-fanart", "-backdrop", "-banner", "-landscape", "-clearlogo",
    "-clearart", "-logo", "-discart", "-keyart"].map String.toList

def subtitleExts : List Text :=
  [".ass", ".ssa", ".srt", ".vtt", ".sub", ".idx", ".sup", ".smi"].map String.toList

/-- `names`, the `.nfo` file and the images of a stem. -/
def sidecarNames (stem : Text) : List Text :=
  (stem ++ ".nfo".toList) ::
    imageExts.flatMap fun img => artworkSuffixes.map fun suffix => stem ++ suffix ++ img

def stemOf (name : Text) : Text := trimSuffix name (ext name)

section Remove

variable (u : UnicodeCase)

def isStrm (name : Text) : Bool := u.equalFold (ext name) ".strm".toList

def isSubtitle (name : Text) : Bool := u.lower (ext name) ∈ subtitleExts

/-- `base` is the stem, or the stem and the mark of a language. -/
def isSubtitleOf (stem base : Text) : Bool :=
  u.equalFold base stem || (u.lower stem ++ ['.']).isPrefixOf (u.lower base)

/-- `match`, before other stems are looked at. -/
def matchesStem (stem name : Text) : Bool :=
  if isSubtitle u name then isSubtitleOf u stem (stemOf name)
  else u.lower name ∈ (sidecarNames stem).map u.lower

/-- The loop over `other`: a longer stem of the directory has the subtitle. -/
def hasLongerStem (entries : List Entry) (base stem name : Text) : Bool :=
  entries.any fun other =>
    isStrm u other.name && other.name ≠ base && len stem < len (stemOf other.name) &&
      isSubtitleOf u (stemOf other.name) (stemOf name)

/-- `match`, at the end. -/
def isSidecar (entries : List Entry) (base stem name : Text) : Bool :=
  matchesStem u stem name && !(isSubtitle u name && hasLongerStem u entries base stem name)

def isSharedMediaSidecar (name : Text) : Bool :=
  let name := u.lower name
  name ∈ ["movie.nfo", "tvshow.nfo", "season.nfo"].map String.toList ||
    (ext name ∈ imageExts &&
      stemOf name ∈ ["poster", "fanart", "folder", "thumb", "backdrop", "banner", "landscape",
        "clearlogo", "clearart", "logo", "discart", "keyart"].map String.toList)

/-- What is left of the entries when the files of a stem are removed. -/
def removeSidecars (entries : List Entry) (base stem : Text) : List Entry :=
  entries.filter fun entry => entry.isDir || !isSidecar u entries base stem entry.name

def isSharedFile (entry : Entry) : Bool := !entry.isDir && isSharedMediaSidecar u entry.name

def removeStaleStrmAndSameStemSidecars (dir : List Entry) (base : Text) : List Entry :=
  let entries := dir.filter (·.name ≠ base)
  if ext base = [] ∨ stemOf base = [] then entries
  else
    let entries := removeSidecars u entries base (stemOf base)
    if entries.all (isSharedFile u) then [] else entries

end Remove

/-! ### Names of sidecars -/

section Names

variable {u : UnicodeCase} {name stem t : Text}

/-- The last three characters, which tell a kind of file. -/
def ending (name : Text) : Text := name.reverse.take 3

theorem ending_append (s : Text) (h : 3 ≤ t.length) : ending (s ++ t) = ending t := by
  rw [ending, List.reverse_append, List.take_append_of_le_length (by simpa using h), ending]

theorem lower_append (s t : Text) : u.lower (s ++ t) = u.lower s ++ u.lower t := List.map_append

theorem length_lower (s : Text) : (u.lower s).length = s.length := List.length_map _

/-- Letters of ASCII in lower case. -/
def plain (t : Text) : Bool := 3 ≤ t.length && t.all fun c => c.toNat < 128 && c.toLower = c

theorem lower_of_plain (h : plain t) : u.lower t = t := by
  rw [plain, Bool.and_eq_true, List.all_eq_true] at h
  rw [UnicodeCase.lower, List.map_congr_left (g := id), List.map_id]
  intro c hc
  have hascii := h.2 c hc
  rw [Bool.and_eq_true, decide_eq_true_iff, decide_eq_true_iff] at hascii
  rw [UnicodeCase.toLower, if_pos hascii.1, hascii.2, id]

theorem length_of_plain (h : plain t) : 3 ≤ t.length := by
  rw [plain, Bool.and_eq_true] at h
  exact of_decide_eq_true h.1

theorem ending_lower_append (s : Text) (h : plain t) : ending (u.lower (s ++ t)) = ending t := by
  rw [lower_append, lower_of_plain h, ending_append _ (length_of_plain h)]

theorem ending_of_ext {n : Text} (h : 3 ≤ (ext n).length) : ending n = ending (ext n) := by
  have hne : ext n ≠ [] := by
    intro hnil
    rw [hnil] at h
    simp at h
  obtain ⟨front, tail, hname, -, hext⟩ := exists_ext hne
  rw [hext] at h ⊢
  rw [hname, ending_append _ h]

/-- How `.nfo` files and images end. -/
def artEndings : List Text := (".nfo".toList :: imageExts).map ending

theorem plain_imageExts : ∀ img ∈ imageExts, plain img := by decide

theorem plain_subtitleExts : ∀ e ∈ subtitleExts, plain e := by decide

/-- What folds to letters of ASCII other than s and k is one of their two cases. -/
theorem lower_of_map_fold (ht : t.all fun d => d.toNat < 128 && d ≠ 's' && d ≠ 'k')
    {s : Text} (h : s.map u.fold = t) : u.lower s = t := by
  induction s generalizing t with
  | nil => exact h
  | cons c s ih =>
    subst h
    rw [List.map_cons, List.all_cons, Bool.and_eq_true] at ht
    have hd := ht.1
    simp only [Bool.and_eq_true, decide_eq_true_eq, ne_eq] at hd
    have htail := ih ht.2 rfl
    rw [UnicodeCase.lower] at htail ⊢
    rw [List.map_cons, List.map_cons, htail, u.toLower_of_fold hd.1.1 hd.1.2 hd.2 rfl]

theorem ending_lower (s : Text) : ending (u.lower s) = u.lower (ending s) := by
  rw [ending, UnicodeCase.lower, ← List.map_reverse, ← List.map_take, ending, UnicodeCase.lower]

theorem ending_of_isStrm (h : isStrm u name) : ending (u.lower name) = ['m', 'r', 't'] := by
  have hfold : (ext name).map u.fold = ".strm".toList.map u.fold := of_decide_eq_true h
  have hlength : 3 ≤ (ext name).length := by
    have hlen := congrArg List.length hfold
    rw [List.length_map, List.length_map] at hlen
    rw [hlen]
    decide
  have hending : (ending (ext name)).map u.fold = ['m', 'r', 't'] := by
    rw [ending, List.map_take, List.map_reverse, hfold]
    rfl
  rw [ending_lower, ending_of_ext hlength]
  exact lower_of_map_fold (by decide) hending

theorem ending_of_isSubtitle (h : isSubtitle u name) :
    ending (u.lower name) ∈ subtitleExts.map ending := by
  have hmem : u.lower (ext name) ∈ subtitleExts := of_decide_eq_true h
  have hlength := length_of_plain (plain_subtitleExts _ hmem)
  rw [length_lower] at hlength
  rw [ending_lower, ending_of_ext hlength, ← ending_lower]
  exact List.mem_map_of_mem hmem

theorem ending_of_mem_sidecarNames (h : u.lower name ∈ (sidecarNames stem).map u.lower) :
    ending (u.lower name) ∈ artEndings := by
  obtain ⟨sidecar, hsidecar, heq⟩ := List.mem_map.mp h
  rw [← heq, artEndings, List.map_cons, List.mem_cons]
  rw [sidecarNames, List.mem_cons] at hsidecar
  rcases hsidecar with rfl | hsidecar
  · exact .inl (ending_lower_append stem (by decide))
  · obtain ⟨img, himg, hsidecar⟩ := List.mem_flatMap.mp hsidecar
    obtain ⟨suffix, -, rfl⟩ := List.mem_map.mp hsidecar
    rw [ending_lower_append _ (plain_imageExts img himg)]
    exact .inr (List.mem_map_of_mem himg)

theorem ending_of_isSharedMediaSidecar (h : isSharedMediaSidecar u name) :
    ending (u.lower name) ∈ artEndings := by
  simp only [isSharedMediaSidecar, Bool.or_eq_true, Bool.and_eq_true, decide_eq_true_eq] at h
  rcases h with hnfo | ⟨himg, -⟩
  · generalize u.lower name = n at hnfo
    revert n
    decide
  · have hlength := length_of_plain (plain_imageExts _ himg)
    rw [ending_of_ext hlength, artEndings, List.map_cons]
    exact List.mem_cons_of_mem _ (List.mem_map_of_mem himg)

theorem not_isSubtitle_of_isStrm (h : isStrm u name) : ¬isSubtitle u name := by
  intro hsub
  have hend := ending_of_isSubtitle hsub
  rw [ending_of_isStrm h] at hend
  exact absurd hend (by decide)

theorem not_matchesStem_of_isStrm (h : isStrm u name) : ¬matchesStem u stem name := by
  rw [matchesStem, if_neg (not_isSubtitle_of_isStrm h), decide_eq_true_iff]
  intro hmem
  have hend := ending_of_mem_sidecarNames hmem
  rw [ending_of_isStrm h] at hend
  exact absurd hend (by decide)

theorem not_isSharedMediaSidecar_of_isStrm (h : isStrm u name) : ¬isSharedMediaSidecar u name := by
  intro hshared
  have hend := ending_of_isSharedMediaSidecar hshared
  rw [ending_of_isStrm h] at hend
  exact absurd hend (by decide)

theorem not_isSubtitle_of_isSharedMediaSidecar (h : isSharedMediaSidecar u name) :
    ¬isSubtitle u name := by
  intro hsub
  have hdisjoint : ∀ e ∈ subtitleExts.map ending, e ∉ artEndings := by decide
  exact hdisjoint _ (ending_of_isSubtitle hsub) (ending_of_isSharedMediaSidecar h)

end Names

/-! ### What is removed -/

section Removal

variable {u : UnicodeCase} {dir : List Entry} {base : Text} {f : Entry}

/-- The first loop removes the entry. -/
def RemovedAsSidecar (u : UnicodeCase) (dir : List Entry) (base : Text) (f : Entry) : Prop :=
  stemOf base ≠ [] ∧ f.isDir = false ∧
    isSidecar u (dir.filter (·.name ≠ base)) base (stemOf base) f.name

theorem ext_ne_nil_of_isStrm (h : isStrm u base) : ext base ≠ [] := by
  intro hnil
  rw [isStrm, hnil] at h
  exact absurd (congrArg List.length (of_decide_eq_true h)) (by simp)

theorem mem_removeSidecars {entries : List Entry} {stem : Text} :
    f ∈ removeSidecars u entries base stem ↔
      f ∈ entries ∧ ¬(f.isDir = false ∧ isSidecar u entries base stem f.name) := by
  rw [removeSidecars, List.mem_filter]
  cases f.isDir <;> simp

theorem removeStale_subset : removeStaleStrmAndSameStemSidecars u dir base ⊆ dir := by
  intro f hf
  unfold removeStaleStrmAndSameStemSidecars at hf
  simp only at hf
  split_ifs at hf
  · exact List.mem_of_mem_filter hf
  · cases hf
  · exact List.mem_of_mem_filter (mem_removeSidecars.mp hf).1

/-- An entry is removed as the file itself, as a sidecar of it, or with all that is left. -/
theorem removed_cases (hf : f ∈ dir) (hnot : f ∉ removeStaleStrmAndSameStemSidecars u dir base) :
    f.name = base ∨ RemovedAsSidecar u dir base f ∨
      isSharedFile u f ∧ removeStaleStrmAndSameStemSidecars u dir base = [] := by
  by_cases hname : f.name = base
  · exact .inl hname
  have hentries : f ∈ dir.filter (·.name ≠ base) :=
    List.mem_filter.mpr ⟨hf, decide_eq_true hname⟩
  unfold removeStaleStrmAndSameStemSidecars at hnot ⊢
  simp only at hnot ⊢
  split_ifs at hnot ⊢ with hstem hshared
  · exact absurd hentries hnot
  · by_cases hsidecar : RemovedAsSidecar u dir base f
    · exact .inr (.inl hsidecar)
    · refine .inr (.inr ⟨List.all_eq_true.mp hshared f (mem_removeSidecars.mpr ⟨hentries, ?_⟩), rfl⟩)
      exact fun h => hsidecar ⟨(not_or.mp hstem).2, h⟩
  · refine .inr (.inl ⟨(not_or.mp hstem).2, ?_⟩)
    by_contra hleft
    exact hnot (mem_removeSidecars.mpr ⟨hentries, hleft⟩)

theorem not_mem_of_name (h : f.name = base) :
    f ∉ removeStaleStrmAndSameStemSidecars u dir base := by
  have hentries : f ∉ dir.filter (·.name ≠ base) := by simp [h]
  unfold removeStaleStrmAndSameStemSidecars
  simp only
  split_ifs
  · exact hentries
  · exact List.not_mem_nil
  · exact fun hmem => hentries (mem_removeSidecars.mp hmem).1

theorem not_mem_of_removedAsSidecar (hstrm : isStrm u base) (h : RemovedAsSidecar u dir base f) :
    f ∉ removeStaleStrmAndSameStemSidecars u dir base := by
  unfold removeStaleStrmAndSameStemSidecars
  simp only
  rw [if_neg (not_or.mpr ⟨ext_ne_nil_of_isStrm hstrm, h.1⟩)]
  split_ifs
  · exact List.not_mem_nil
  · exact fun hmem => (mem_removeSidecars.mp hmem).2 h.2

/-- Where only shared artwork is left, all of it goes. -/
theorem removeStale_eq_nil (hstrm : isStrm u base) (hstem : stemOf base ≠ [])
    (h : ∀ f ∈ dir, f.name ≠ base → ¬RemovedAsSidecar u dir base f → isSharedFile u f) :
    removeStaleStrmAndSameStemSidecars u dir base = [] := by
  unfold removeStaleStrmAndSameStemSidecars
  simp only
  rw [if_neg (not_or.mpr ⟨ext_ne_nil_of_isStrm hstrm, hstem⟩), if_pos]
  rw [List.all_eq_true]
  intro f hf
  obtain ⟨hentries, hleft⟩ := mem_removeSidecars.mp hf
  obtain ⟨hdir, hname⟩ := List.mem_filter.mp hentries
  exact h f hdir (of_decide_eq_true hname) fun hremoved => hleft hremoved.2

end Removal

end AllInOneBackup.LitePan.Strm
