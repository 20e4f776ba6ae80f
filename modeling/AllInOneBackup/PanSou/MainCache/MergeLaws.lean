import AllInOneBackup.PanSou.MainCache.Merge
import Mathlib.Data.Finset.Max
import Mathlib.Data.List.MinMax
import Mathlib.Data.List.Sort
import Mathlib.Order.Lattice.Nat

/-! What `mergeSearchResults` keeps of two lists, and what repeated merges do. Of the existing list
the last result of a key goes into the map and of the new one the best, so a merge keeps the best of
both when the existing list has nothing better than these. -/

namespace AllInOneBackup.PanSou.MainCache

open DiskCache (Table)

/-! ### The property and the condition -/

/-- What the list has for the key, in its order. -/
def withKey (results : List SearchResult) (key : String) : List SearchResult :=
  results.filter fun r => generateResultKey r = key

/-- The score of a result, if it is there. -/
def scoreOf (result : Option SearchResult) : WithBot ℕ :=
  result.elim ⊥ fun r => (calculateCompletenessScore r : WithBot ℕ)

/-- The greatest score that the list has for the key. -/
def bestScore (results : List SearchResult) (key : String) : WithBot ℕ :=
  ((withKey results key).map calculateCompletenessScore).maximum

/-- The score of the last result that the list has for the key. -/
def lastScore (results : List SearchResult) (key : String) : WithBot ℕ :=
  scoreOf (withKey results key).getLast?

/-- One result for each key of the two lists, with the greatest score of them all, and the newest
first. -/
structure Right (existing newResults merged : List SearchResult) : Prop where
  nodup : (merged.map generateResultKey).Nodup
  hasKey : ∀ key, HasKey merged key ↔ HasKey existing key ∨ HasKey newResults key
  mem : ∀ r ∈ merged, r ∈ existing ++ newResults
  best : ∀ r ∈ merged, ∀ x ∈ existing ++ newResults, generateResultKey x = generateResultKey r →
    calculateCompletenessScore x ≤ calculateCompletenessScore r
  sorted : merged.Pairwise fun a b => b.datetime ≤ a.datetime

/-- To merge the list once more changes nothing but the order of results of one time. -/
def Settled (merged again : List SearchResult) : Prop :=
  ∀ merged', Merged merged again merged' → merged'.Perm merged

/-- No existing result is better than the last one of its key and all new ones of it. -/
def LastBest (existing newResults : List SearchResult) : Prop :=
  ∀ key, bestScore existing key ≤ max (lastScore existing key) (bestScore newResults key)

/-- A sequence of merges, grouped. -/
inductive Merges
  | list (results : List SearchResult)
  | merge (existing newResults : Merges)

def Merges.lists : Merges → List (List SearchResult)
  | .list results => [results]
  | .merge existing newResults => existing.lists ++ newResults.lists

/-- What a sequence of merges may give. -/
inductive Gives : Merges → List SearchResult → Prop
  | list (results : List SearchResult) : Gives (.list results) results
  | merge {existing newResults : Merges} {a b merged : List SearchResult} :
    Gives existing a → Gives newResults b → Merged a b merged →
    Gives (.merge existing newResults) merged

/-- The keys and the scores. -/
def keyScores (results : List SearchResult) : List (String × ℕ) :=
  results.map fun r => (generateResultKey r, calculateCompletenessScore r)

/-- All ways to merge the lists give the same keys and scores. -/
def Independent (lists : List (List SearchResult)) : Prop :=
  ∀ t t' results results', t.lists.Perm lists → t'.lists.Perm lists → Gives t results →
    Gives t' results' → (keyScores results).Perm (keyScores results')

/-- For each key the last result of it in some list is the best of all, or all lists have one as
good as the best. -/
def OneLastBest (lists : List (List SearchResult)) : Prop :=
  ∀ key, (∃ a ∈ lists, ∀ b ∈ lists, bestScore b key ≤ lastScore a key) ∨
    ∀ a ∈ lists, ∀ b ∈ lists, bestScore b key ≤ bestScore a key

/-! ### Scores -/

section Scores

variable {results : List SearchResult} {key : String} {r : SearchResult} {x : WithBot ℕ}

theorem mem_withKey : r ∈ withKey results key ↔ r ∈ results ∧ generateResultKey r = key := by
  simp [withKey]

theorem score_le_bestScore (hr : r ∈ results) :
    (calculateCompletenessScore r : WithBot ℕ) ≤ bestScore results (generateResultKey r) :=
  List.le_maximum_of_mem' (List.mem_map_of_mem (mem_withKey.mpr ⟨hr, rfl⟩))

theorem bestScore_le (h : ∀ r ∈ results, generateResultKey r = key →
    (calculateCompletenessScore r : WithBot ℕ) ≤ x) : bestScore results key ≤ x := by
  refine List.maximum_le_of_forall_le fun n hn => ?_
  obtain ⟨r, hr, rfl⟩ := List.mem_map.mp hn
  obtain ⟨hmem, hkey⟩ := mem_withKey.mp hr
  exact h r hmem hkey

theorem bestScore_nil (key : String) : bestScore [] key = ⊥ := rfl

theorem bestScore_cons (r : SearchResult) (results : List SearchResult) (key : String) :
    bestScore (r :: results) key = if generateResultKey r = key
      then max (calculateCompletenessScore r : WithBot ℕ) (bestScore results key)
      else bestScore results key := by
  unfold bestScore withKey
  split_ifs with h
  · rw [List.filter_cons_of_pos (by simpa using h), List.map_cons, List.maximum_cons]
    rfl
  · rw [List.filter_cons_of_neg (by simpa using h)]

theorem bestScore_append (a b : List SearchResult) (key : String) :
    bestScore (a ++ b) key = max (bestScore a key) (bestScore b key) := by
  induction a with
  | nil => rw [List.nil_append, bestScore_nil, max_eq_right bot_le]
  | cons r a ih =>
    rw [List.cons_append, bestScore_cons, bestScore_cons, ih]
    split_ifs
    · rw [max_assoc]
    · rfl

/-- The last result is one of them. -/
theorem lastScore_le_bestScore (results : List SearchResult) (key : String) :
    lastScore results key ≤ bestScore results key := by
  unfold lastScore
  cases hlast : (withKey results key).getLast? with
  | none => exact bot_le
  | some r =>
    obtain ⟨hmem, rfl⟩ := mem_withKey.mp (List.mem_of_getLast? hlast)
    exact score_le_bestScore hmem

end Scores

/-! ### The map of a merge -/

section Table

variable {m m' : Table String SearchResult} {results existing newResults : List SearchResult}
  {key : String} {r : SearchResult}

/-- The existing list leaves the last of its results. -/
theorem lookup_foldl_addResult (results : List SearchResult) (m : Table String SearchResult)
    (key : String) : (results.foldl addResult m).lookup key =
      (withKey results key).getLast?.or (m.lookup key) := by
  induction results generalizing m with
  | nil => rfl
  | cons r results ih =>
    rw [List.foldl_cons, ih, addResult]
    by_cases hkey : generateResultKey r = key
    · have hcons : withKey (r :: results) key = r :: withKey results key :=
        List.filter_cons_of_pos (by simpa using hkey)
      rw [hcons, List.getLast?_cons, ← hkey, AList.lookup_insert]
      cases (withKey results (generateResultKey r)).getLast? <;> rfl
    · have hcons : withKey (r :: results) key = withKey results key :=
        List.filter_cons_of_neg (by simpa using hkey)
      rw [hcons, AList.lookup_insert_ne (Ne.symm hkey)]

theorem scoreOf_selectBetterResult (old new : SearchResult) :
    scoreOf (some (selectBetterResult old new)) = max (scoreOf (some old)) (scoreOf (some new)) := by
  unfold selectBetterResult scoreOf
  split_ifs with h
  · exact (max_eq_right (by simpa using h.le)).symm
  · exact (max_eq_left (by simpa using h)).symm

/-- A new result counts where it is better. -/
theorem scoreOf_mergeResult (m : Table String SearchResult) (new : SearchResult) (key : String) :
    scoreOf ((mergeResult m new).lookup key) = if generateResultKey new = key
      then max (scoreOf (m.lookup key)) (calculateCompletenessScore new)
      else scoreOf (m.lookup key) := by
  simp only [mergeResult]
  split_ifs with hkey
  · subst hkey
    split
    · rename_i old hold
      rw [AList.lookup_insert, scoreOf_selectBetterResult, hold]
      rfl
    · rename_i hnone
      rw [AList.lookup_insert, hnone]
      exact (max_eq_right bot_le).symm
  · split <;> rw [AList.lookup_insert_ne (Ne.symm hkey)]

/-- The new list leaves the best of its results and what has been there. -/
theorem scoreOf_foldl_mergeResult (results : List SearchResult) (m : Table String SearchResult)
    (key : String) : scoreOf ((results.foldl mergeResult m).lookup key) =
      max (scoreOf (m.lookup key)) (bestScore results key) := by
  induction results generalizing m with
  | nil => rw [List.foldl_nil, bestScore_nil, max_eq_left bot_le]
  | cons r results ih =>
    rw [List.foldl_cons, ih, scoreOf_mergeResult, bestScore_cons]
    split_ifs
    · rw [max_assoc]
    · rfl

theorem scoreOf_resultMap (existing newResults : List SearchResult) (key : String) :
    scoreOf ((resultMap existing newResults).lookup key) =
      max (lastScore existing key) (bestScore newResults key) := by
  rw [resultMap, scoreOf_foldl_mergeResult, lookup_foldl_addResult, AList.lookup_empty,
    Option.or_none]
  rfl

theorem mem_of_lookup_mergeResult {new : SearchResult}
    (h : (mergeResult m new).lookup key = some r) : m.lookup key = some r ∨ r = new := by
  simp only [mergeResult] at h
  rcases eq_or_ne key (generateResultKey new) with rfl | hne
  · split at h
    · rename_i old hold
      rw [AList.lookup_insert, selectBetterResult] at h
      split_ifs at h
      · exact .inr (Option.some.inj h).symm
      · exact .inl (hold.trans h)
    · rw [AList.lookup_insert] at h
      exact .inr (Option.some.inj h).symm
  · split at h <;> exact .inl ((AList.lookup_insert_ne hne).symm.trans h)

theorem mem_of_lookup_foldl_mergeResult
    (h : (results.foldl mergeResult m).lookup key = some r) :
    m.lookup key = some r ∨ r ∈ results := by
  induction results generalizing m with
  | nil => exact .inl h
  | cons new results ih =>
    rcases ih h with hold | hmem
    · rcases mem_of_lookup_mergeResult hold with hold | rfl
      · exact .inl hold
      · exact .inr List.mem_cons_self
    · exact .inr (List.mem_cons_of_mem _ hmem)

/-- The map has results of the two lists. -/
theorem mem_of_lookup_resultMap (h : (resultMap existing newResults).lookup key = some r) :
    r ∈ existing ++ newResults := by
  rcases mem_of_lookup_foldl_mergeResult h with hold | hnew
  · rw [lookup_foldl_addResult, AList.lookup_empty, Option.or_none] at hold
    exact List.mem_append_left _ (mem_withKey.mp (List.mem_of_getLast? hold)).1
  · exact List.mem_append_right _ hnew

/-- Results that are no better than what is there change nothing. -/
theorem foldl_mergeResult_eq (hkeys : ∀ key, HasKey results key → key ∈ m)
    (h : ∀ key, bestScore results key ≤ scoreOf (m.lookup key)) (key : String) :
    (results.foldl mergeResult m).lookup key = m.lookup key := by
  induction results generalizing m with
  | nil => rfl
  | cons new results ih =>
    obtain ⟨old, hold⟩ := Option.isSome_iff_exists.mp
      (AList.lookup_isSome.mpr (hkeys _ ⟨new, List.mem_cons_self, rfl⟩))
    have hle : calculateCompletenessScore new ≤ calculateCompletenessScore old := by
      have hnew := (score_le_bestScore (List.mem_cons_self (a := new) (l := results))).trans (h _)
      rw [hold] at hnew
      exact WithBot.coe_le_coe.mp hnew
    have hkept : ∀ key, (mergeResult m new).lookup key = m.lookup key := by
      intro key
      simp only [mergeResult, hold, selectBetterResult, if_neg (not_lt.mpr hle)]
      rcases eq_or_ne key (generateResultKey new) with rfl | hne
      · rw [AList.lookup_insert, hold]
      · rw [AList.lookup_insert_ne hne]
    have hrest : ∀ key, bestScore results key ≤ scoreOf ((mergeResult m new).lookup key) := by
      intro key
      refine le_trans (bestScore_le fun r hr hkey => ?_) ((h key).trans_eq (by rw [hkept]))
      rw [← hkey]
      exact score_le_bestScore (List.mem_cons_of_mem _ hr)
    rw [List.foldl_cons, ih (fun key hkey => ?_) hrest, hkept]
    rw [← AList.lookup_isSome, hkept, AList.lookup_isSome]
    exact hkeys key (hkey.imp fun r hr => ⟨List.mem_cons_of_mem _ hr.1, hr.2⟩)

end Table

/-! ### One merge -/

section Merge

variable {existing newResults merged again : List SearchResult} {key : String} {r : SearchResult}

theorem mem_merged (h : Merged existing newResults merged) : r ∈ merged ↔
    (resultMap existing newResults).lookup (generateResultKey r) = some r := by
  have hkeyed := (resultMap_keys existing newResults).1
  rw [h.1.mem_iff, List.mem_map]
  constructor
  · rintro ⟨⟨key, x⟩, he, rfl⟩
    have hlookup := AList.mem_lookup_iff.mpr he
    rw [hkeyed key x hlookup]
    exact hlookup
  · exact fun hlookup => ⟨⟨_, r⟩, AList.mem_lookup_iff.mp hlookup, rfl⟩

theorem nodup_merged (h : Merged existing newResults merged) :
    (merged.map generateResultKey).Nodup := by
  have hkeyed := (resultMap_keys existing newResults).1
  have hkeys : ((resultMap existing newResults).entries.map (·.2)).map generateResultKey =
      (resultMap existing newResults).keys := by
    rw [List.map_map, AList.keys, List.keys]
    exact List.map_congr_left fun e he => hkeyed e.1 e.2 (AList.mem_lookup_iff.mpr he)
  rw [(h.1.map generateResultKey).nodup_iff, hkeys]
  exact AList.keys_nodup _

/-- A merged list has for a key what the map has. -/
theorem withKey_merged (h : Merged existing newResults merged) (key : String) :
    withKey merged key = ((resultMap existing newResults).lookup key).toList := by
  have hkeyed := (resultMap_keys existing newResults).1
  have hmem : ∀ x, x ∈ withKey merged key ↔ (resultMap existing newResults).lookup key = some x := by
    intro x
    rw [mem_withKey, mem_merged h]
    constructor
    · rintro ⟨hlookup, rfl⟩
      exact hlookup
    · intro hlookup
      have hkey := hkeyed key x hlookup
      exact ⟨hkey ▸ hlookup, hkey⟩
  cases hlookup : (resultMap existing newResults).lookup key with
  | none =>
    refine List.eq_nil_iff_forall_not_mem.mpr fun x hx => ?_
    rw [hmem, hlookup] at hx
    cases hx
  | some r =>
    have hnodup : (withKey merged key).Nodup := (nodup_merged h).of_map.filter _
    refine List.perm_singleton.mp ((List.perm_ext_iff_of_nodup hnodup (List.nodup_singleton r)).mpr
      fun x => ?_)
    rw [hmem, hlookup, List.mem_singleton, Option.some.injEq, eq_comm]

theorem lastScore_merged (h : Merged existing newResults merged) (key : String) :
    lastScore merged key = max (lastScore existing key) (bestScore newResults key) := by
  rw [← scoreOf_resultMap, lastScore, withKey_merged h]
  cases (resultMap existing newResults).lookup key <;> rfl

theorem bestScore_merged (h : Merged existing newResults merged) (key : String) :
    bestScore merged key = max (lastScore existing key) (bestScore newResults key) := by
  rw [← scoreOf_resultMap, bestScore, withKey_merged h]
  cases (resultMap existing newResults).lookup key <;> rfl

theorem exists_merged (existing newResults : List SearchResult) :
    ∃ merged, Merged existing newResults merged := by
  let newest := fun a b : SearchResult => b.datetime ≤ a.datetime
  have htotal : Std.Total newest := ⟨fun a b => le_total b.datetime a.datetime⟩
  have htrans : IsTrans SearchResult newest := ⟨fun _ _ _ hab hbc => hbc.trans hab⟩
  refine ⟨((resultMap existing newResults).entries.map (·.2)).insertionSort newest,
    List.perm_insertionSort _ _, ?_⟩
  exact (List.pairwise_insertionSort newest _).imp fun hab => not_lt.mpr hab

/-- To merge in results that are no better changes nothing. -/
theorem settled_of_le (h : Merged existing newResults merged)
    (hle : ∀ key, bestScore again key ≤ bestScore merged key) : Settled merged again := by
  intro merged' h'
  have hlast : ∀ key, (merged.foldl addResult ∅).lookup key =
      (resultMap existing newResults).lookup key := by
    intro key
    rw [lookup_foldl_addResult, AList.lookup_empty, Option.or_none, withKey_merged h]
    cases (resultMap existing newResults).lookup key <;> rfl
  have hbetter : ∀ key, bestScore again key ≤ scoreOf ((merged.foldl addResult ∅).lookup key) := by
    intro key
    rw [hlast, scoreOf_resultMap, ← bestScore_merged h]
    exact hle key
  have hkeys : ∀ key, HasKey again key → key ∈ merged.foldl addResult ∅ := by
    rintro key ⟨r, hr, rfl⟩
    have hscore := (score_le_bestScore hr).trans (hbetter _)
    rw [← AList.lookup_isSome]
    cases hlookup : (merged.foldl addResult ∅).lookup (generateResultKey r) with
    | none =>
      rw [hlookup] at hscore
      exact absurd hscore (by simp [scoreOf])
    | some x => rfl
  have hsame : ∀ key, (resultMap merged again).lookup key =
      (resultMap existing newResults).lookup key := fun key =>
    (foldl_mergeResult_eq hkeys hbetter key).trans (hlast key)
  refine (List.perm_ext_iff_of_nodup (nodup_merged h').of_map (nodup_merged h).of_map).mpr
    fun r => ?_
  rw [mem_merged h', mem_merged h, hsame]

theorem bestScore_of_mem_merged (h : Merged existing newResults merged) (hr : r ∈ merged) :
    bestScore merged (generateResultKey r) = calculateCompletenessScore r := by
  rw [bestScore, withKey_merged h, (mem_merged h).mp hr]
  rfl

theorem mem_keyScores_merged (h : Merged existing newResults merged) (n : ℕ) :
    (key, n) ∈ keyScores merged ↔ bestScore merged key = n := by
  rw [keyScores, List.mem_map]
  constructor
  · rintro ⟨r, hr, heq⟩
    obtain ⟨rfl, rfl⟩ := Prod.mk.inj heq
    exact bestScore_of_mem_merged h hr
  · intro hscore
    rw [bestScore_merged h, ← scoreOf_resultMap] at hscore
    cases hlookup : (resultMap existing newResults).lookup key with
    | none =>
      rw [hlookup] at hscore
      cases hscore
    | some r =>
      rw [hlookup] at hscore
      have hkey := (resultMap_keys existing newResults).1 key r hlookup
      have hn : calculateCompletenessScore r = n := WithBot.coe_inj.mp hscore
      exact ⟨r, (mem_merged h).mpr (hkey ▸ hlookup), by rw [hkey, hn]⟩

/-- The kept results are the best just when the existing list has nothing better than its last. -/
theorem right_iff (h : Merged existing newResults merged) :
    Right existing newResults merged ↔ LastBest existing newResults := by
  constructor
  · intro hright key
    rw [← bestScore_merged h]
    refine bestScore_le fun x hx hkey => ?_
    obtain ⟨r, hr, hrkey⟩ := (hright.hasKey key).mpr (.inl ⟨x, hx, hkey⟩)
    have hle := hright.best r hr x (List.mem_append_left _ hx) (hkey.trans hrkey.symm)
    have hbest := score_le_bestScore hr
    rw [hrkey] at hbest
    exact le_trans (WithBot.coe_le_coe.mpr hle) hbest
  · intro hlast
    refine ⟨nodup_merged h, hasKey_merged h, fun r hr => mem_of_lookup_resultMap ((mem_merged h).mp hr),
      ?_, h.2.imp fun hab => not_lt.mp hab⟩
    intro r hr x hx hkey
    have hscore := bestScore_of_mem_merged h hr
    have hle := score_le_bestScore hx
    rw [hkey, bestScore_append] at hle
    have hmax := max_le (hlast (generateResultKey r)) (le_max_right (lastScore existing _) _)
    rw [← bestScore_merged h, hscore] at hmax
    exact WithBot.coe_le_coe.mp (hle.trans hmax)

end Merge

/-! ### Repeated merges -/

section Repeated

/-- The greatest score that a grouped list counts with as the existing list, or as the new one. -/
def Merges.score (key : String) : Bool → Merges → WithBot ℕ
  | true, .list results => lastScore results key
  | false, .list results => bestScore results key
  | _, .merge existing newResults => max (existing.score key true) (newResults.score key false)

variable {t t' : Merges} {results results' : List SearchResult} {lists : List (List SearchResult)}
  {key : String}

theorem Gives.scores (h : Gives t results) (key : String) :
    lastScore results key = t.score key true ∧ bestScore results key = t.score key false := by
  induction h with
  | list results => exact ⟨rfl, rfl⟩
  | merge _ _ hmerged ihexisting ihnew =>
    rw [lastScore_merged hmerged, bestScore_merged hmerged, ihexisting.1, ihnew.2]
    exact ⟨rfl, rfl⟩

theorem exists_gives (t : Merges) : ∃ results, Gives t results := by
  induction t with
  | list results => exact ⟨results, .list results⟩
  | merge existing newResults ihexisting ihnew =>
    obtain ⟨a, ha⟩ := ihexisting
    obtain ⟨b, hb⟩ := ihnew
    obtain ⟨merged, hmerged⟩ := exists_merged a b
    exact ⟨merged, .merge ha hb hmerged⟩

theorem Merges.score_true_le (t : Merges) (key : String) : t.score key true ≤ t.score key false := by
  cases t with
  | list results => exact lastScore_le_bestScore results key
  | merge existing newResults => exact le_refl _

/-- A list counts with its last result at least, wherever it comes. -/
theorem Merges.lastScore_le_score {a : List SearchResult} (ha : a ∈ t.lists) (key : String) :
    lastScore a key ≤ t.score key true := by
  induction t with
  | list results => exact (List.mem_singleton.mp ha) ▸ le_refl _
  | merge existing newResults ihexisting ihnew =>
    rcases List.mem_append.mp ha with ha | ha
    · exact (ihexisting ha).trans (le_max_left _ _)
    · exact ((ihnew ha).trans (newResults.score_true_le key)).trans (le_max_right _ _)

/-- Some list comes last, and counts with its best result. -/
theorem Merges.exists_bestScore_le (t : Merges) (key : String) :
    ∃ a ∈ t.lists, bestScore a key ≤ t.score key false := by
  induction t with
  | list results => exact ⟨results, List.mem_singleton_self _, le_refl _⟩
  | merge existing newResults _ ihnew =>
    obtain ⟨a, ha, hle⟩ := ihnew
    exact ⟨a, List.mem_append_right _ ha, hle.trans (le_max_right _ _)⟩

/-- No grouping has more than the best of the lists. -/
theorem Merges.exists_score_le (t : Merges) (key : String) :
    ∃ a ∈ t.lists, t.score key false ≤ bestScore a key := by
  induction t with
  | list results => exact ⟨results, List.mem_singleton_self _, le_refl _⟩
  | merge existing newResults ihexisting ihnew =>
    rcases le_total (existing.score key true) (newResults.score key false) with hle | hle
    · obtain ⟨a, ha, hscore⟩ := ihnew
      exact ⟨a, List.mem_append_right _ ha, (max_le hle le_rfl).trans hscore⟩
    · obtain ⟨a, ha, hscore⟩ := ihexisting
      have hmax := max_le (existing.score_true_le key) (hle.trans (existing.score_true_le key))
      exact ⟨a, List.mem_append_left _ ha, hmax.trans hscore⟩

/-- Where one last result is the best, each grouping has the best. -/
theorem bestScore_le_score (h : OneLastBest lists) (ht : t.lists.Perm lists)
    {a : List SearchResult} (ha : a ∈ lists) : bestScore a key ≤ t.score key false := by
  rcases h key with ⟨b, hb, hbest⟩ | hall
  · have hlast := Merges.lastScore_le_score (ht.mem_iff.mpr hb) key
    exact ((hbest a ha).trans hlast).trans (t.score_true_le key)
  · obtain ⟨b, hb, hle⟩ := t.exists_bestScore_le key
    exact (hall b (ht.mem_iff.mp hb) a ha).trans hle

theorem score_eq (h : OneLastBest lists) (ht : t.lists.Perm lists) (ht' : t'.lists.Perm lists)
    (key : String) : t.score key false = t'.score key false := by
  obtain ⟨a, ha, hle⟩ := t.exists_score_le key
  obtain ⟨a', ha', hle'⟩ := t'.exists_score_le key
  have hge : bestScore a key ≤ t'.score key false := bestScore_le_score h ht' (ht.mem_iff.mp ha)
  have hge' : bestScore a' key ≤ t.score key false := bestScore_le_score h ht (ht'.mem_iff.mp ha')
  exact le_antisymm (hle.trans hge) (hle'.trans hge')

theorem Merges.lists_length_pos (t : Merges) : 0 < t.lists.length := by
  induction t with
  | list results => exact Nat.one_pos
  | merge existing newResults ihexisting _ =>
    rw [Merges.lists, List.length_append]
    omega

/-- A list that is not merged is the only one. -/
theorem lists_eq_singleton (h : t.lists.Perm [results]) : t = .list results := by
  cases t with
  | list results' => rw [List.singleton_perm_singleton.mp h]
  | merge existing newResults =>
    have hlength := h.length_eq
    have hexisting := existing.lists_length_pos
    have hnew := newResults.lists_length_pos
    rw [Merges.lists, List.length_append, List.length_singleton] at hlength
    omega

theorem independent_of_oneLastBest (h : OneLastBest lists) : Independent lists := by
  intro t t' results results' ht ht' hgives hgives'
  cases hgives with
  | list =>
    obtain rfl := lists_eq_singleton (ht'.trans ht.symm)
    cases hgives'
    exact List.Perm.refl _
  | merge hexisting hnew hmerged =>
    cases hgives' with
    | list =>
      have hsingle := lists_eq_singleton (ht.trans ht'.symm)
      cases hsingle
    | merge hexisting' hnew' hmerged' =>
      have hscore : ∀ key, bestScore results key = bestScore results' key := fun key => by
        rw [((Gives.merge hexisting hnew hmerged).scores key).2,
          ((Gives.merge hexisting' hnew' hmerged').scores key).2]
        exact score_eq h ht ht' key
      have hnodup : ∀ {l : List SearchResult}, (l.map generateResultKey).Nodup →
          (keyScores l).Nodup := fun hl => by
        refine List.Nodup.of_map Prod.fst ?_
        rw [keyScores, List.map_map]
        exact hl
      refine (List.perm_ext_iff_of_nodup (hnodup (nodup_merged hmerged))
        (hnodup (nodup_merged hmerged'))).mpr ?_
      rintro ⟨key, n⟩
      rw [mem_keyScores_merged hmerged, mem_keyScores_merged hmerged', hscore]

theorem bestScore_le_of_keyScores (h : keyScores results ⊆ keyScores results') (key : String) :
    bestScore results key ≤ bestScore results' key := by
  refine bestScore_le fun r hr hkey => ?_
  obtain ⟨r', hr', heq⟩ := List.mem_map.mp (h (List.mem_map_of_mem hr))
  obtain ⟨hkey', hscore⟩ := Prod.mk.inj heq
  have hle := score_le_bestScore hr'
  rw [hkey', hkey, hscore] at hle
  exact hle

/-- The lists in turn, and one at the end. -/
def Merges.comb (last : List SearchResult) (lists : List (List SearchResult)) : Merges :=
  lists.foldr (fun results t => .merge (.list results) t) (.list last)

theorem Merges.lists_comb (last : List SearchResult) (lists : List (List SearchResult)) :
    (Merges.comb last lists).lists = lists ++ [last] := by
  induction lists with
  | nil => rfl
  | cons results lists ih => exact congrArg (results :: ·) ih

/-- All but the one at the end count with their last results. -/
theorem Merges.score_comb_lt {last : List SearchResult} {x : WithBot ℕ}
    (hlists : ∀ a ∈ lists, lastScore a key < x) (hlast : bestScore last key < x) :
    (Merges.comb last lists).score key false < x := by
  induction lists with
  | nil => exact hlast
  | cons results lists ih =>
    exact max_lt (hlists results List.mem_cons_self)
      (ih fun a ha => hlists a (List.mem_cons_of_mem _ ha))

theorem Merges.le_score_comb (last : List SearchResult) (lists : List (List SearchResult))
    (key : String) : bestScore last key ≤ (Merges.comb last lists).score key false := by
  induction lists with
  | nil => exact le_refl _
  | cons results lists ih => exact ih.trans (le_max_right _ _)

/-- Where no last result is the best and some list has no such result, it matters which list comes
at the end. -/
theorem oneLastBest_of_independent (h : Independent lists) : OneLastBest lists := by
  intro key
  by_contra hnot
  push Not at hnot
  obtain ⟨hlast, a, ha, b, hb, hlt⟩ := hnot
  obtain ⟨c, hc, hbest⟩ := lists.toFinset.exists_max_image (bestScore · key)
    ⟨a, List.mem_toFinset.mpr ha⟩
  rw [List.mem_toFinset] at hc
  simp only [List.mem_toFinset] at hbest
  have hlists : ∀ d ∈ lists, lastScore d key < bestScore c key := by
    intro d hd
    obtain ⟨e, he, hde⟩ := hlast d hd
    exact hde.trans_le (hbest e he)
  have hcomb : ∀ d ∈ lists, (Merges.comb d (lists.erase d)).lists.Perm lists := by
    intro d hd
    rw [Merges.lists_comb]
    exact List.perm_append_comm.trans (List.perm_cons_erase hd).symm
  have hless : (Merges.comb a (lists.erase a)).score key false < bestScore c key :=
    Merges.score_comb_lt (fun d hd => hlists d (List.mem_of_mem_erase hd))
      (hlt.trans_le (hbest b hb))
  obtain ⟨results, hresults⟩ := exists_gives (Merges.comb a (lists.erase a))
  obtain ⟨results', hresults'⟩ := exists_gives (Merges.comb c (lists.erase c))
  have hperm := h _ _ _ _ (hcomb a ha) (hcomb c hc) hresults hresults'
  have hle := bestScore_le_of_keyScores hperm.symm.subset key
  rw [(hresults.scores key).2, (hresults'.scores key).2] at hle
  exact absurd ((Merges.le_score_comb c (lists.erase c) key).trans hle) (not_le.mpr hless)

end Repeated

/-- A merge has the best result of each key, and to merge one of its lists again changes nothing,
just when the existing list has nothing better than its last results and the new list; and the
grouping and the order of repeated merges do not matter just when for each key one last result is
the best, or all lists have one as good. -/
theorem merge_right_iff (existing newResults : List SearchResult)
    (lists : List (List SearchResult)) :
    ((∀ merged, Merged existing newResults merged →
        Right existing newResults merged ∧
          ∀ again ∈ [existing, newResults, merged], Settled merged again) ↔
      LastBest existing newResults) ∧
    (Independent lists ↔ OneLastBest lists) := by
  refine ⟨⟨fun h => ?_, fun h merged hmerged => ?_⟩,
    ⟨oneLastBest_of_independent, independent_of_oneLastBest⟩⟩
  · obtain ⟨merged, hmerged⟩ := exists_merged existing newResults
    exact (right_iff hmerged).mp (h merged hmerged).1
  · refine ⟨(right_iff hmerged).mpr h, fun again hagain => settled_of_le hmerged fun key => ?_⟩
    have hexisting := h key
    rw [← bestScore_merged hmerged] at hexisting
    have hnew : bestScore newResults key ≤ bestScore merged key := by
      rw [bestScore_merged hmerged]
      exact le_max_right _ _
    rcases List.mem_cons.mp hagain with rfl | hagain
    · exact hexisting
    · rcases List.mem_cons.mp hagain with rfl | hagain
      · exact hnew
      · rw [List.mem_singleton.mp hagain]

/-- Two results of one message, the better one first. -/
def rebuilt : List SearchResult :=
  [{ messageID := "1", content := "c", datetime := 2 }, { messageID := "1", datetime := 1 }]

/-- With nothing new the better one is lost. -/
theorem better_result_lost :
    ¬∀ existing newResults merged, Merged existing newResults merged →
      Right existing newResults merged := by
  intro h
  have hmerged : Merged rebuilt [] [{ messageID := "1", datetime := 1 }] := by decide
  have hbest := (h _ _ _ hmerged).best _ List.mem_cons_self
    { messageID := "1", content := "c", datetime := 2 } (by simp [rebuilt]) (by decide)
  exact absurd hbest (by decide)

end AllInOneBackup.PanSou.MainCache
