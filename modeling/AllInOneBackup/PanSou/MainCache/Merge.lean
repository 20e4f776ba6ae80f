import AllInOneBackup.PanSou.DiskCache.Store

/-! The results of a search and how two lists of them are merged: of the results with one key the
one with the most information stays. -/

namespace AllInOneBackup.PanSou.MainCache

open DiskCache (Table eq_of_lookup_insert)

/-- `model.SearchResult`, with the URLs of its links. -/
structure SearchResult where
  messageID : String := ""
  uniqueID : String := ""
  channel : String := ""
  datetime : ℤ := 0
  title : String := ""
  content : String := ""
  links : List String := []
  tags : List String := []
  deriving DecidableEq

def generateResultKey (result : SearchResult) : String :=
  if result.uniqueID ≠ "" then result.uniqueID
  else if result.messageID ≠ "" then result.messageID
  else "title_" ++ result.title ++ "_" ++ result.channel

def calculateCompletenessScore (result : SearchResult) : ℕ :=
  (if result.uniqueID ≠ "" then 10 else 0) +
    (if 0 < result.links.length then 5 + result.links.length else 0) +
    (if result.content ≠ "" then 3 else 0) +
    result.title.utf8ByteSize / 10 +
    (if result.channel ≠ "" then 2 else 0) +
    result.tags.length

def selectBetterResult (existing new : SearchResult) : SearchResult :=
  if calculateCompletenessScore new > calculateCompletenessScore existing then new else existing

/-- `resultMap[key] = …` for an existing result. -/
def addResult (resultMap : Table String SearchResult) (result : SearchResult) :
    Table String SearchResult :=
  resultMap.insert (generateResultKey result) result

/-- `resultMap[key] = …` for a new result. -/
def mergeResult (resultMap : Table String SearchResult) (newResult : SearchResult) :
    Table String SearchResult :=
  let key := generateResultKey newResult
  match resultMap.lookup key with
  | some existingResult => resultMap.insert key (selectBetterResult existingResult newResult)
  | none => resultMap.insert key newResult

def resultMap (existing newResults : List SearchResult) : Table String SearchResult :=
  newResults.foldl mergeResult (existing.foldl addResult ∅)

/-- A result of `mergeSearchResults`: the map in some order, sorted by a sort that is not stable. -/
def Merged (existing newResults merged : List SearchResult) : Prop :=
  merged.Perm ((resultMap existing newResults).entries.map (·.2)) ∧
    merged.Pairwise fun a b => ¬b.datetime > a.datetime

instance (existing newResults merged : List SearchResult) :
    Decidable (Merged existing newResults merged) :=
  inferInstanceAs (Decidable (_ ∧ _))

/-- A result of the list has the key. -/
def HasKey (results : List SearchResult) (key : String) : Prop :=
  ∃ result ∈ results, generateResultKey result = key

instance (results : List SearchResult) (key : String) : Decidable (HasKey results key) :=
  inferInstanceAs (Decidable (∃ result ∈ results, _))

/-! ### The keys of a merge -/

/-- Every result is at its key. -/
def Keyed (m : Table String SearchResult) : Prop :=
  ∀ key result, m.lookup key = some result → generateResultKey result = key

theorem keyed_insert {m : Table String SearchResult} (hm : Keyed m) (result : SearchResult) :
    Keyed (m.insert (generateResultKey result) result) := by
  intro key r hr
  rcases eq_or_ne key (generateResultKey result) with rfl | hne
  · rw [eq_of_lookup_insert hr]
  · rw [AList.lookup_insert_ne hne] at hr
    exact hm key r hr

/-- A new result, or a better one of its key, is put at its key. -/
theorem mergeResult_eq {m : Table String SearchResult} (hm : Keyed m) (new : SearchResult) :
    ∃ r, generateResultKey r = generateResultKey new ∧
      mergeResult m new = m.insert (generateResultKey r) r := by
  simp only [mergeResult]
  split
  case h_1 old hold =>
    have hkey : generateResultKey (selectBetterResult old new) = generateResultKey new := by
      unfold selectBetterResult
      split_ifs
      · rfl
      · exact hm _ old hold
    exact ⟨_, hkey, by rw [hkey]⟩
  case h_2 => exact ⟨new, rfl, rfl⟩

/-- A fold that puts at each step a result at its key, where it has that of the list. -/
theorem fold_keys {f : Table String SearchResult → SearchResult → Table String SearchResult}
    (hf : ∀ m new, Keyed m → ∃ r, generateResultKey r = generateResultKey new ∧
      f m new = m.insert (generateResultKey r) r) (results : List SearchResult)
    {m : Table String SearchResult} (hm : Keyed m) :
    Keyed (results.foldl f m) ∧
      ∀ key, key ∈ results.foldl f m ↔ key ∈ m ∨ HasKey results key := by
  induction results generalizing m with
  | nil => simp [HasKey, hm]
  | cons new results ih =>
    obtain ⟨r, hr, he⟩ := hf m new hm
    have hkeyed : Keyed (f m new) := by
      rw [he]
      exact keyed_insert hm r
    refine ⟨(ih hkeyed).1, fun key => ?_⟩
    rw [List.foldl_cons, (ih hkeyed).2 key, he, AList.mem_insert, hr]
    simp only [HasKey, List.mem_cons, exists_eq_or_imp]
    tauto

theorem resultMap_keys (existing newResults : List SearchResult) :
    Keyed (resultMap existing newResults) ∧
      ∀ key, key ∈ resultMap existing newResults ↔ HasKey existing key ∨ HasKey newResults key := by
  have hnil : Keyed ∅ := by
    intro key r hr
    cases hr
  have hold := fold_keys (f := addResult) (fun m new _ => ⟨new, rfl, rfl⟩) existing hnil
  have hnew := fold_keys (f := mergeResult) (fun m new hm => mergeResult_eq hm new) newResults hold.1
  refine ⟨hnew.1, fun key => ?_⟩
  rw [resultMap, hnew.2 key, hold.2 key]
  simp [AList.notMem_empty]

/-- A merge has the keys of both lists. -/
theorem hasKey_merged {existing newResults merged : List SearchResult}
    (h : Merged existing newResults merged) (key : String) :
    HasKey merged key ↔ HasKey existing key ∨ HasKey newResults key := by
  have hkeys := resultMap_keys existing newResults
  rw [← hkeys.2 key]
  constructor
  · rintro ⟨r, hr, rfl⟩
    obtain ⟨⟨key, r⟩, he, rfl⟩ := List.mem_map.mp (h.1.subset hr)
    have hl := AList.mem_lookup_iff.mpr he
    rw [hkeys.1 key r hl]
    exact AList.lookup_isSome.mp (Option.isSome_of_mem hl)
  · intro hk
    obtain ⟨r, hr⟩ := Option.isSome_iff_exists.mp (AList.lookup_isSome.mpr hk)
    exact ⟨r, h.1.symm.subset (List.mem_map.mpr ⟨⟨key, r⟩, AList.mem_lookup_iff.mp hr, rfl⟩),
      hkeys.1 key r hr⟩

end AllInOneBackup.PanSou.MainCache
