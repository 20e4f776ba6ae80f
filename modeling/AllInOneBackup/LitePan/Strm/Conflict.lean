import AllInOneBackup.Data.Dict
import AllInOneBackup.LitePan.Strm.Names
import Mathlib

/-! `selectConflictWinners`. Candidates are grouped by one name and written under another. Where the
keys of the groups are told apart, only an ISO file and a file that has its whole name as its stem
can come to one path. -/

namespace AllInOneBackup.LitePan.Strm

open Data Data.Text

/-! ### `timewindow.go` -/

structure MediaCandidate where
  fileID : Text
  fileName : Text
  size : ℤ
  relDirs : List Text
  deriving DecidableEq

def strmConflictSizeDesc : Text := "size_desc".toList

def strmConflictSizeAsc : Text := "size_asc".toList

def strmConflictNameAsc : Text := "name_asc".toList

section Select

-- `strings.ToLower`.
variable (lower : Text → Text)

def normalizeConflictPolicy (policy : Text) : Text :=
  let policy := trimSpace (lower policy)
  if policy = strmConflictSizeAsc ∨ policy = strmConflictNameAsc then policy
  else strmConflictSizeDesc

/-- The strings are compared by their UTF-8 bytes, and so by their characters. -/
def betterCandidate (a b : MediaCandidate) (policy : Text) : Bool :=
  let byName : Bool :=
    if lower a.fileName ≠ lower b.fileName then lower a.fileName < lower b.fileName
    else a.fileID < b.fileID
  if policy = strmConflictSizeAsc then
    if a.size ≠ b.size then a.size < b.size else byName
  else if policy = strmConflictNameAsc then byName
  else if a.size ≠ b.size then a.size > b.size else byName

def dirKey (relDirs : List Text) : Text := Text.join '/' (relDirs.map safeName)

def stemKey (item : MediaCandidate) : Text := lower (safeName (mediaStem item.fileName))

def groupKey (item : MediaCandidate) : Text :=
  dirKey item.relDirs ++ '\x00' :: stemKey lower item

/-- The loop over a group. -/
def winner (policy : Text) (first : MediaCandidate) (rest : List MediaCandidate) : MediaCandidate :=
  rest.foldl (fun winner item => if betterCandidate lower item winner policy then item else winner)
    first

/-- What is selected, a group after the other, and how many are skipped; Go has the groups in any
order. -/
def selectConflictWinners (items : List MediaCandidate) (policy : Text) : List MediaCandidate × ℕ :=
  let grouped := Dict.collect (items.map fun item => (groupKey lower item, item))
  let policy := normalizeConflictPolicy lower policy
  (grouped.filterMap fun group => match group.2 with
      | [] => none
      | first :: rest => some (winner lower policy first rest),
    (grouped.map fun group => group.2.length - 1).sum)

end Select

/-! ### The order of the candidates -/

section Rank

variable {lower : Text → Text} {policy : Text}

/-- What `betterCandidate` compares. -/
def rank (lower : Text → Text) (policy : Text) (item : MediaCandidate) : ℤ ×ₗ Text ×ₗ Text :=
  let size := if policy = strmConflictSizeAsc then item.size
    else if policy = strmConflictNameAsc then 0 else -item.size
  toLex (size, toLex (lower item.fileName, item.fileID))

theorem lt_name_iff (x : ℤ) (m n : Text × Text) :
    toLex (x, toLex m) < toLex (x, toLex n) ↔ if m.1 ≠ n.1 then m.1 < n.1 else m.2 < n.2 := by
  simp only [Prod.Lex.toLex_lt_toLex, lt_self_iff_false, true_and, false_or]
  split_ifs with h
  · exact ⟨fun hlt => hlt.resolve_right fun heq => h heq.1, .inl⟩
  · rw [not_not] at h
    simp [h]

theorem betterCandidate_iff (a b : MediaCandidate) :
    betterCandidate lower a b policy = true ↔ rank lower policy a < rank lower policy b := by
  have hname : ∀ x : ℤ, toLex (x, toLex (lower a.fileName, a.fileID)) <
      toLex (x, toLex (lower b.fileName, b.fileID)) ↔
      (if lower a.fileName ≠ lower b.fileName then decide (lower a.fileName < lower b.fileName)
        else decide (a.fileID < b.fileID)) = true := by
    intro x
    rw [lt_name_iff]
    simp only
    split_ifs <;> simp
  have hsize : ∀ x y : ℤ, x ≠ y → ∀ m n : Text ×ₗ Text, toLex (x, m) < toLex (y, n) ↔ x < y := by
    intro x y hne m n
    simp [Prod.Lex.toLex_lt_toLex, hne]
  unfold betterCandidate rank
  by_cases hasc : policy = strmConflictSizeAsc
  · simp only [if_pos hasc]
    by_cases hs : a.size = b.size
    · rw [if_neg (not_not.mpr hs), hs]
      exact (hname _).symm
    · rw [if_pos hs, hsize _ _ hs, decide_eq_true_iff]
  · simp only [if_neg hasc]
    by_cases hname_asc : policy = strmConflictNameAsc
    · simp only [if_pos hname_asc]
      exact (hname _).symm
    · simp only [if_neg hname_asc]
      by_cases hs : a.size = b.size
      · rw [if_neg (not_not.mpr hs), hs]
        exact (hname _).symm
      · rw [if_pos hs, hsize _ _ (fun heq => hs (neg_inj.mp heq)), decide_eq_true_iff, neg_lt_neg_iff]

theorem winner_concat (first item : MediaCandidate) (rest : List MediaCandidate) :
    winner lower policy first (rest ++ [item]) =
      if betterCandidate lower item (winner lower policy first rest) policy then item
      else winner lower policy first rest := by
  rw [winner, List.foldl_append, List.foldl_cons, List.foldl_nil, ← winner]

/-- The loop takes the first of the best. -/
theorem winner_mem_argmin (lower : Text → Text) (policy : Text) (first : MediaCandidate) (rest : List MediaCandidate) :
    winner lower policy first rest ∈ List.argmin (rank lower policy) (first :: rest) := by
  induction rest using List.reverseRecOn with
  | nil => rfl
  | append_singleton rest item ih =>
    rw [← List.cons_append, List.argmin_concat, Option.mem_def.mp ih, winner_concat]
    simp only [betterCandidate_iff]
    split_ifs <;> rfl

theorem winner_eq_first {first : MediaCandidate} {rest : List MediaCandidate}
    (h : ∀ item ∈ rest, ¬betterCandidate lower item first policy) :
    winner lower policy first rest = first := by
  induction rest with
  | nil => rfl
  | cons item rest ih =>
    rw [winner, List.foldl_cons, if_neg (h item List.mem_cons_self)]
    exact ih fun x hx => h x (List.mem_cons_of_mem _ hx)

end Rank

/-! ### What should be selected, and when it is -/

section Groups

variable (lower : Text → Text) (policy : Text) (items : List MediaCandidate)

/-- The candidates have the same directory and the same stem. -/
def SameGroup (x y : MediaCandidate) : Prop :=
  x.relDirs.map safeName = y.relDirs.map safeName ∧ stemKey lower x = stemKey lower y

instance (x y : MediaCandidate) : Decidable (SameGroup lower x y) :=
  inferInstanceAs (Decidable (_ ∧ _))

/-- No candidate of its group is better. -/
def Best (x : MediaCandidate) : Prop :=
  ∀ y ∈ items, SameGroup lower x y →
    ¬betterCandidate lower y x (normalizeConflictPolicy lower policy)

def selected : List MediaCandidate := (selectConflictWinners lower items policy).1

/-- The paths are distinct, each group has one candidate selected, a best one, and the order of the
list does not matter. -/
structure Right (outputFolder : Text) (isoFilenameEnabled : Bool) : Prop where
  paths : ((selected lower policy items).map fun item =>
    localRelPath outputFolder item.relDirs item.fileName isoFilenameEnabled).Nodup
  subset : selected lower policy items ⊆ items
  groups : ∀ x ∈ items, ∃ w, (selected lower policy items).filter (SameGroup lower x) = [w] ∧
    Best lower policy items w
  order : ∀ items', items.Perm items' →
    ∀ w, w ∈ selected lower policy items' ↔ w ∈ selected lower policy items

/-- The keys tell the groups apart, no group has two best candidates, and the best of the ISO files
has not its name for the stem of another best candidate of its directory. -/
structure Clear (isoFilenameEnabled : Bool) : Prop where
  keys : ∀ x ∈ items, ∀ y ∈ items, groupKey lower x = groupKey lower y → SameGroup lower x y
  best : ∀ x ∈ items, ∀ y ∈ items, SameGroup lower x y → Best lower policy items x →
    Best lower policy items y → x = y
  iso : isoFilenameEnabled → ∀ x ∈ items, ∀ y ∈ items, Best lower policy items x →
    Best lower policy items y → isISOFileName x.fileName → ¬isISOFileName y.fileName →
    x.relDirs.map safeName = y.relDirs.map safeName →
    safeName x.fileName ≠ safeStem (mediaStem y.fileName)

end Groups

/-! ### Groups and paths -/

section Selected

variable {lower : Text → Text} {policy : Text} {items : List MediaCandidate}
  {x y w : MediaCandidate}

theorem groupKey_eq_of_sameGroup (h : SameGroup lower x y) : groupKey lower x = groupKey lower y := by
  rw [groupKey, groupKey, dirKey, dirKey, h.1, h.2]

/-- The candidates of a key, in their order. -/
def group (lower : Text → Text) (items : List MediaCandidate) (k : Text) : List MediaCandidate :=
  items.filter fun item => groupKey lower item = k

theorem valuesOf_groupKey (k : Text) :
    Dict.valuesOf k (items.map fun item => (groupKey lower item, item)) = group lower items k := by
  rw [Dict.valuesOf, group, List.filterMap_map, ← List.filterMap_eq_filter]
  congr 1
  funext item
  simp [Option.guard]

theorem winner_spec (lower : Text → Text) (policy : Text) (first : MediaCandidate)
    (rest : List MediaCandidate) :
    winner lower policy first rest ∈ first :: rest ∧
      ∀ item ∈ first :: rest, ¬betterCandidate lower item (winner lower policy first rest) policy := by
  have hargmin := winner_mem_argmin lower policy first rest
  refine ⟨List.argmin_mem hargmin, fun item hitem hbetter => ?_⟩
  rw [betterCandidate_iff] at hbetter
  exact absurd hbetter (not_lt.mpr (List.le_of_mem_argmin hitem hargmin))

theorem mem_group {k : Text} : w ∈ group lower items k ↔ w ∈ items ∧ groupKey lower w = k := by
  simp [group]

/-- A candidate is selected as the winner of the candidates of its key. -/
theorem mem_selected : w ∈ selected lower policy items ↔
    ∃ k first rest, group lower items k = first :: rest ∧
      winner lower (normalizeConflictPolicy lower policy) first rest = w := by
  simp only [selected, selectConflictWinners, List.mem_filterMap, Prod.exists, Dict.mem_collect,
    valuesOf_groupKey]
  constructor
  · rintro ⟨k, vs, ⟨-, rfl⟩, hw⟩
    cases hgroup : group lower items k with
    | nil => simp [hgroup] at hw
    | cons first rest =>
      rw [hgroup] at hw
      exact ⟨k, first, rest, hgroup, Option.some.inj hw⟩
  · rintro ⟨k, first, rest, hgroup, hw⟩
    refine ⟨k, first :: rest, ⟨?_, hgroup.symm⟩, congrArg some hw⟩
    have hfirst := mem_group.mp (hgroup ▸ List.mem_cons_self (a := first) (l := rest))
    rw [List.map_map]
    exact List.mem_map.mpr ⟨first, hfirst.1, hfirst.2⟩

theorem map_groupKey_selected : (selected lower policy items).map (groupKey lower) =
    (Dict.collect (items.map fun item => (groupKey lower item, item))).map Prod.fst := by
  have hfst : ∀ d : List (Text × List MediaCandidate),
      d.map Prod.fst = d.filterMap fun entry => some entry.1 := fun d => by simp
  rw [selected, selectConflictWinners, List.map_filterMap, hfst]
  refine List.filterMap_congr fun entry hentry => ?_
  obtain ⟨k, vs⟩ := entry
  rw [Dict.mem_collect, valuesOf_groupKey] at hentry
  obtain ⟨hk, rfl⟩ := hentry
  cases hgroup : group lower items k with
  | nil =>
    rw [List.map_map] at hk
    obtain ⟨item, hitem, hkey⟩ := List.mem_map.mp hk
    have hmem : item ∈ group lower items k := mem_group.mpr ⟨hitem, hkey⟩
    rw [hgroup] at hmem
    cases hmem
  | cons first rest =>
    have hwinner := (winner_spec lower (normalizeConflictPolicy lower policy) first rest).1
    rw [← hgroup] at hwinner
    exact congrArg some (mem_group.mp hwinner).2

theorem nodup_selected (lower : Text → Text) (policy : Text) (items : List MediaCandidate) :
    ((selected lower policy items).map (groupKey lower)).Nodup := by
  rw [map_groupKey_selected]
  exact Dict.nodup_collect _

/-- A key has one candidate selected. -/
theorem eq_of_groupKey_eq (hx : x ∈ selected lower policy items)
    (hy : y ∈ selected lower policy items) (h : groupKey lower x = groupKey lower y) : x = y :=
  List.inj_on_of_nodup_map (nodup_selected lower policy items) hx hy h

theorem exists_selected (policy : Text) (hx : x ∈ items) :
    ∃ w ∈ selected lower policy items, groupKey lower w = groupKey lower x := by
  have hgroup : x ∈ group lower items (groupKey lower x) := mem_group.mpr ⟨hx, rfl⟩
  cases hcut : group lower items (groupKey lower x) with
  | nil =>
    rw [hcut] at hgroup
    cases hgroup
  | cons first rest =>
    refine ⟨_, mem_selected.mpr ⟨_, first, rest, hcut, rfl⟩, ?_⟩
    have hwinner := (winner_spec lower (normalizeConflictPolicy lower policy) first rest).1
    rw [← hcut] at hwinner
    exact (mem_group.mp hwinner).2

theorem best_of_mem_selected (hw : w ∈ selected lower policy items) :
    w ∈ items ∧ Best lower policy items w := by
  obtain ⟨k, first, rest, hcut, rfl⟩ := mem_selected.mp hw
  have hspec := winner_spec lower (normalizeConflictPolicy lower policy) first rest
  rw [← hcut] at hspec
  have hmem := mem_group.mp hspec.1
  refine ⟨hmem.1, fun y hy hsame => hspec.2 y (mem_group.mpr ⟨hy, ?_⟩)⟩
  rw [← groupKey_eq_of_sameGroup hsame]
  exact hmem.2

/-- A best candidate is selected where it comes first. -/
theorem mem_selected_cons
    (hkeys : ∀ y ∈ items, groupKey lower x = groupKey lower y → SameGroup lower x y)
    (hbest : Best lower policy items x) : x ∈ selected lower policy (x :: items) := by
  have hcut : group lower (x :: items) (groupKey lower x) =
      x :: group lower items (groupKey lower x) := List.filter_cons_of_pos (by simp)
  refine mem_selected.mpr ⟨_, x, _, hcut, winner_eq_first fun y hy => ?_⟩
  have hmem := mem_group.mp hy
  exact hbest y hmem.1 (hkeys y hmem.1 hmem.2.symm)

end Selected

/-! ### When the selection is right -/

section Iff

variable {lower : Text → Text} {policy out : Text} {items : List MediaCandidate} {iso : Bool}

/-- Where the groups are told apart and have one best candidate each, the best are selected. -/
theorem mem_selected_iff_best (h : Clear lower policy items iso) {w : MediaCandidate} :
    w ∈ selected lower policy items ↔ w ∈ items ∧ Best lower policy items w := by
  refine ⟨best_of_mem_selected, fun ⟨hw, hbest⟩ => ?_⟩
  obtain ⟨v, hv, hkey⟩ := exists_selected policy hw
  have hbest' := best_of_mem_selected hv
  have hsame := h.keys w hw v hbest'.1 hkey.symm
  rwa [h.best w hw v hbest'.1 hsame hbest hbest'.2]

theorem clear_perm {items' : List MediaCandidate} (hperm : items.Perm items')
    (h : Clear lower policy items iso) : Clear lower policy items' iso := by
  have hmem : ∀ x, x ∈ items' ↔ x ∈ items := fun x => hperm.mem_iff.symm
  have hbest : ∀ x, Best lower policy items' x ↔ Best lower policy items x := by
    intro x
    simp only [Best, hmem]
  constructor
  · simpa only [hmem] using h.keys
  · simpa only [hmem, hbest] using h.best
  · simpa only [hmem, hbest] using h.iso

/-- Two files of one path are grouped together, or one is named as an ISO file and the other not. -/
theorem stemKey_eq_of_localStrmFileName_eq {x y : MediaCandidate}
    (hkind : (iso && isISOFileName x.fileName) = (iso && isISOFileName y.fileName))
    (h : localStrmFileName x.fileName iso = localStrmFileName y.fileName iso) :
    stemKey lower x = stemKey lower y := by
  rw [localStrmFileName, localStrmFileName, ← hkind] at h
  rw [stemKey, stemKey]
  congr 1
  by_cases hx : (iso && isISOFileName x.fileName) = true
  · have hy := hkind ▸ hx
    rw [if_pos hx, if_pos hx] at h
    rw [Bool.and_eq_true] at hx hy
    exact safeName_mediaStem_eq_of_iso hx.2 hy.2 (List.append_cancel_right h)
  · rw [if_neg hx, if_neg hx] at h
    exact safeName_eq_of_safeStem_eq (List.append_cancel_right h)

/-- A file named as an ISO file and one named otherwise do not come to one path. -/
theorem localStrmFileName_ne_of_iso (h : Clear lower policy items iso) {x y : MediaCandidate}
    (hx : x ∈ selected lower policy items) (hy : y ∈ selected lower policy items)
    (hdirs : x.relDirs.map safeName = y.relDirs.map safeName)
    (hisox : (iso && isISOFileName x.fileName) = true)
    (hisoy : (iso && isISOFileName y.fileName) ≠ true) :
    localStrmFileName x.fileName iso ≠ localStrmFileName y.fileName iso := by
  have hx := best_of_mem_selected hx
  have hy := best_of_mem_selected hy
  rw [localStrmFileName, localStrmFileName, if_pos hisox, if_neg hisoy]
  rw [Bool.and_eq_true] at hisox
  have hnot : ¬isISOFileName y.fileName := fun hyes => hisoy (by rw [hisox.1, hyes]; rfl)
  intro heq
  exact h.iso hisox.1 x hx.1 y hy.1 hx.2 hy.2 hisox.2 hnot hdirs (List.append_cancel_right heq)

theorem right_of_clear (h : Clear lower policy items iso) : Right lower policy items out iso := by
  refine ⟨?_, fun w hw => (best_of_mem_selected hw).1, fun x hx => ?_, fun items' hperm w => ?_⟩
  · refine List.Nodup.map_on (fun x hx y hy heq => ?_) (nodup_selected lower policy items).of_map
    obtain ⟨hdirs, hname⟩ := localRelPath_eq_iff.mp heq
    refine eq_of_groupKey_eq hx hy (groupKey_eq_of_sameGroup ⟨hdirs, ?_⟩)
    by_cases hkind : (iso && isISOFileName x.fileName) = (iso && isISOFileName y.fileName)
    · exact stemKey_eq_of_localStrmFileName_eq hkind hname
    · exfalso
      by_cases hisox : (iso && isISOFileName x.fileName) = true
      · have hisoy : (iso && isISOFileName y.fileName) ≠ true := fun hisoy => hkind (hisox.trans hisoy.symm)
        exact localStrmFileName_ne_of_iso h hx hy hdirs hisox hisoy hname
      · have hisoy : (iso && isISOFileName y.fileName) = true := by
          cases hy : iso && isISOFileName y.fileName with
          | false => exact absurd ((Bool.eq_false_of_not_eq_true hisox).trans hy.symm) hkind
          | true => rfl
        exact localStrmFileName_ne_of_iso h hy hx hdirs.symm hisoy hisox hname.symm
  · obtain ⟨w, hw, hkey⟩ := exists_selected policy hx
    have hbest := best_of_mem_selected hw
    refine ⟨w, ?_, hbest.2⟩
    have hnodup := (nodup_selected lower policy items).of_map
    refine List.perm_singleton.mp ((List.perm_ext_iff_of_nodup (hnodup.filter _)
      (List.nodup_singleton w)).mpr fun v => ?_)
    rw [List.mem_filter, List.mem_singleton, decide_eq_true_iff]
    constructor
    · rintro ⟨hv, hsame⟩
      exact eq_of_groupKey_eq hv hw ((groupKey_eq_of_sameGroup hsame).symm.trans hkey.symm)
    · rintro rfl
      exact ⟨hw, h.keys x hx v hbest.1 hkey.symm⟩
  · have hbest : Best lower policy items' w ↔ Best lower policy items w := by
      simp only [Best, hperm.mem_iff]
    rw [mem_selected_iff_best h, mem_selected_iff_best (clear_perm hperm h), hbest, hperm.mem_iff]

theorem keys_of_right (h : Right lower policy items out iso) {x y : MediaCandidate} (hx : x ∈ items)
    (hy : y ∈ items) (hkey : groupKey lower x = groupKey lower y) : SameGroup lower x y := by
  have hgroup : ∀ z ∈ items, ∃ w ∈ selected lower policy items, SameGroup lower z w := by
    intro z hz
    obtain ⟨w, hw, -⟩ := h.groups z hz
    have hmem : w ∈ (selected lower policy items).filter (SameGroup lower z) := by simp [hw]
    rw [List.mem_filter, decide_eq_true_iff] at hmem
    exact ⟨w, hmem⟩
  obtain ⟨v, hv, hxv⟩ := hgroup x hx
  obtain ⟨w, hw, hyw⟩ := hgroup y hy
  have heq : v = w := eq_of_groupKey_eq hv hw <| calc
    groupKey lower v = groupKey lower x := (groupKey_eq_of_sameGroup hxv).symm
    _ = groupKey lower y := hkey
    _ = groupKey lower w := groupKey_eq_of_sameGroup hyw
  subst heq
  exact ⟨hxv.1.trans hyw.1.symm, hxv.2.trans hyw.2.symm⟩

/-- Some order of the list would select it. -/
theorem mem_selected_of_right (h : Right lower policy items out iso) {x : MediaCandidate}
    (hx : x ∈ items) (hbest : Best lower policy items x) : x ∈ selected lower policy items := by
  have hperm : items.Perm (x :: items.erase x) := List.perm_cons_erase hx
  rw [← h.order _ hperm]
  refine mem_selected_cons (fun y hy hkey => ?_) fun y hy => hbest y (List.mem_of_mem_erase hy)
  exact keys_of_right h hx (List.mem_of_mem_erase hy) hkey

theorem clear_of_right (h : Right lower policy items out iso) : Clear lower policy items iso := by
  refine ⟨fun x hx y hy => keys_of_right h hx hy, fun x hx y hy hsame hxbest hybest => ?_,
    fun hiso x hx y hy hxbest hybest hisox hisoy hdirs heq => ?_⟩
  · exact eq_of_groupKey_eq (mem_selected_of_right h hx hxbest) (mem_selected_of_right h hy hybest)
      (groupKey_eq_of_sameGroup hsame)
  · have hpath : localRelPath out x.relDirs x.fileName iso =
        localRelPath out y.relDirs y.fileName iso := by
      refine localRelPath_eq_iff.mpr ⟨hdirs, ?_⟩
      rw [localStrmFileName, localStrmFileName, if_pos (by rw [hiso, hisox]; rfl),
        if_neg (by simp [hisoy]), heq]
    have hxy := List.inj_on_of_nodup_map h.paths (mem_selected_of_right h hx hxbest)
      (mem_selected_of_right h hy hybest) hpath
    rw [hxy] at hisox
    exact hisoy hisox

end Iff

/-- The selection is right just where the groups are told apart, have one best candidate each, and no
ISO file is written under the stem of another file. -/
theorem conflictWinners_right_iff (lower : Text → Text) (policy outputFolder : Text)
    (items : List MediaCandidate) (isoFilenameEnabled : Bool) :
    Right lower policy items outputFolder isoFilenameEnabled ↔
      Clear lower policy items isoFilenameEnabled :=
  ⟨clear_of_right, right_of_clear⟩

/-- `Movie.iso` and `Movie.iso.mkv` are both written as `Movie.iso.strm`. -/
theorem iso_name_written_twice :
    ¬Right (·.map Char.toLower) strmConflictSizeDesc
      [⟨['1'], "Movie.iso".toList, 2, []⟩, ⟨['2'], "Movie.iso.mkv".toList, 1, []⟩] [] true := by
  intro h
  have hpaths := h.paths
  revert hpaths
  decide

end AllInOneBackup.LitePan.Strm
