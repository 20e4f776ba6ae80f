import AllInOneBackup.PanSou.DiskCache.Store

/-! What a crash leaves. A `Set` replaces the data file before the metadata file, and a `Get` writes
back the metadata that it has found earlier, so the two files of a key may be of different `Set`s;
and a `Delete` returns though it could not remove them. A run is consistent at every cut just when
none of these happens to a pair of files that has not expired. -/

namespace AllInOneBackup.PanSou.DiskCache

open Concurrency

variable {K F : Type} [DecidableEq K] [DecidableEq F] {getFilename : K → F}

/-! ### The property and the condition -/

/-- The data and the expiry of every `Set` of the key that no returned `Delete` has followed. -/
def made (key : K) (trace : List (Event K)) : List (Bytes × ℤ) :=
  trace.foldl (fun sets e => match e with
    | .made key' data expiry => if key' = key then (data, expiry) :: sets else sets
    | .deleted key' => if key' = key then [] else sets) []

/-- A `Set` has made the metadata for the data. -/
def MadeFor (trace : List (Event K)) (m : Metadata K) (data : Bytes) : Prop :=
  (data, m.expiry) ∈ made m.key trace ∧ m.size = data.length

/-- What the next process reads back is of one `Set`, and not deleted. -/
def Consistent (getFilename : K → F) (p : CachePool K F) : Prop :=
  ∀ key data m, p.shared.restart.read getFilename key = some (data, m) →
    m.key = key ∧ MadeFor p.trace m data

/-- There are not both files of the key, unless they have expired. -/
def Gone (getFilename : K → F) (s : Cache K F) (key : K) : Prop :=
  ∀ m ∈ s.metaFiles.lookup (getFilename key), m.key = key → ¬s.after m.expiry →
    s.dataFiles.lookup (getFilename key) = none

/-- What is asked of a turn. A `Set` renames its data to a file whose metadata file is of a `Set` of
the same data, expired or not there; a `Get` renames its metadata to a file whose data file is of
the `Set` that made them, or not there, unless they have expired; and a `Delete` returns when the
files of the key are gone. -/
def Safe (getFilename : K → F) (s : Cache K F) (trace : List (Event K)) :
    Point K → Outcome K → Prop
  | .writing key data _, .ok => ∀ m ∈ s.metaFiles.lookup (getFilename key), ¬s.after m.expiry →
      MadeFor trace m data
  | .touching key object _, .ok => ∀ m ∈ s.objects[object]?, ¬s.after m.expiry →
      ∀ data ∈ s.dataFiles.lookup (getFilename key), MadeFor trace m data
  | .delete key, .turn => Gone getFilename s key
  | .deleting key _, .failed => Gone getFilename s key
  | _, _ => True

def StepSafe (getFilename : K → F) (p : CachePool K F) : Action (Outcome K) (External K) → Prop
  | .resume i o => ∀ t ∈ p.tasks[i]?, Safe getFilename p.shared p.trace t.point o
  | .event _ => True

/-! ### The table after a restart -/

namespace Cache

variable {s : Cache K F}

/-- The pointer is to metadata of the key. -/
def PointsTo (s : Cache K F) (key : K) (r : ℕ) : Prop :=
  ∃ m, s.objects[r]? = some m ∧ m.key = key

/-- All pointers of the table are to metadata of their keys. -/
def Tabled (s : Cache K F) : Prop :=
  ∀ key r, s.metadata.lookup key = some r → s.PointsTo key r

omit [DecidableEq K] [DecidableEq F] in
theorem PointsTo.lt {key : K} {r : ℕ} (h : s.PointsTo key r) : r < s.objects.length :=
  h.elim fun _ hm => (List.getElem?_eq_some_iff.mp hm.1).1

omit [DecidableEq F] in
theorem PointsTo.add {key : K} {r : ℕ} (h : s.PointsTo key r) (k : K) (m : Metadata K) :
    (s.add k m).PointsTo key r := by
  obtain ⟨m', hm, hkey⟩ := h
  have hlt : r < s.objects.length := (List.getElem?_eq_some_iff.mp hm).1
  exact ⟨m', by rw [Cache.add, List.getElem?_append_left hlt, hm], hkey⟩

omit [DecidableEq F] in
theorem Tabled.add (h : s.Tabled) {k : K} {m : Metadata K} (hkey : m.key = k) :
    (s.add k m).Tabled := by
  intro key r hr
  rcases eq_or_ne key k with rfl | hne
  · obtain rfl : s.objects.length = r := Option.some.inj ((AList.lookup_insert _).symm.trans hr)
    exact ⟨m, List.getElem?_concat_length, hkey⟩
  · exact (h key r ((AList.lookup_insert_ne hne).symm.trans hr)).add k m

omit [DecidableEq F] in
theorem entry_add (h : s.Tabled) (k key : K) (m : Metadata K) :
    (s.add k m).entry key = if key = k then some m else s.entry key := by
  unfold entry add
  split_ifs with heq
  · subst heq
    simp [AList.lookup_insert]
  · rw [AList.lookup_insert_ne heq]
    cases hr : s.metadata.lookup key with
    | none => rfl
    | some r => simpa using List.getElem?_append_left (h key r hr).lt

/-- Each metadata file has the name of its key. -/
def Named (getFilename : K → F) (s : Cache K F) : Prop :=
  ∀ file m, s.metaFiles.lookup file = some m → getFilename m.key = file

@[simp] theorem loadFile_metaFiles (file : F) : (s.loadFile file).metaFiles = s.metaFiles := by
  unfold loadFile
  split <;> rfl

theorem entry_loadFile (hnamed : s.Named getFilename) (h : s.Tabled) (file : F) (key : K) :
    (s.loadFile file).entry key =
      if getFilename key = file ∧ ((s.metaFiles.lookup file).map (·.key)) = some key
      then s.metaFiles.lookup file else s.entry key := by
  unfold loadFile
  cases hm : s.metaFiles.lookup file with
  | none => simp
  | some m =>
    have hfile := hnamed file m hm
    simp only [Option.map_some, Option.some.injEq, entry_add h]
    rcases eq_or_ne key m.key with rfl | hne
    · rw [if_pos rfl, if_pos ⟨hfile, rfl⟩]
    · rw [if_neg hne, if_neg fun h => hne h.2.symm]

theorem Tabled.loadFile (h : s.Tabled) (file : F) : (s.loadFile file).Tabled := by
  unfold Cache.loadFile
  split
  · exact h.add rfl
  · exact h

theorem entry_foldl (hnamed : s.Named getFilename) (h : s.Tabled) (files : List F) (key : K) :
    (files.foldl loadFile s).entry key =
      if getFilename key ∈ files ∧
        (s.metaFiles.lookup (getFilename key)).map (·.key) = some key
      then s.metaFiles.lookup (getFilename key) else s.entry key := by
  induction files generalizing s with
  | nil => simp
  | cons file files ih =>
    have hnamed' : (s.loadFile file).Named getFilename := by
      intro f m hm
      exact hnamed f m (by simpa using hm)
    rw [List.foldl_cons, ih hnamed' (h.loadFile file), entry_loadFile hnamed h,
      loadFile_metaFiles]
    rcases eq_or_ne (getFilename key) file with rfl | hne
    · by_cases hkey : (s.metaFiles.lookup (getFilename key)).map (·.key) = some key
      · simp [hkey]
      · simp [hkey]
    · simp [hne]

theorem foldl_loadFile_eq (files : List F) :
    (files.foldl loadFile s).dataFiles = s.dataFiles ∧
      (files.foldl loadFile s).metaFiles = s.metaFiles ∧
      (files.foldl loadFile s).now = s.now ∧ (files.foldl loadFile s).process = s.process := by
  induction files generalizing s with
  | nil => exact ⟨rfl, rfl, rfl, rfl⟩
  | cons file files ih =>
    have hfile : (s.loadFile file).dataFiles = s.dataFiles ∧
        (s.loadFile file).metaFiles = s.metaFiles ∧ (s.loadFile file).now = s.now ∧
        (s.loadFile file).process = s.process := by
      unfold loadFile
      split <;> exact ⟨rfl, rfl, rfl, rfl⟩
    rw [List.foldl_cons, ← hfile.1, ← hfile.2.1, ← hfile.2.2.1, ← hfile.2.2.2]
    exact ih

@[simp] theorem restart_dataFiles : s.restart.dataFiles = s.dataFiles :=
  (foldl_loadFile_eq _).1

@[simp] theorem restart_metaFiles : s.restart.metaFiles = s.metaFiles :=
  (foldl_loadFile_eq _).2.1

@[simp] theorem restart_now : s.restart.now = s.now := (foldl_loadFile_eq _).2.2.1

@[simp] theorem restart_process : s.restart.process = s.process + 1 := (foldl_loadFile_eq _).2.2.2

omit [DecidableEq F] in
theorem tabled_reopen : s.reopen.Tabled := by
  intro key r hr
  rw [reopen, AList.lookup_empty] at hr
  cases hr

theorem tabled_restart : s.restart.Tabled := by
  have hfold : ∀ (files : List F) (s : Cache K F), s.Tabled →
      (files.foldl loadFile s).Tabled := by
    intro files
    induction files with
    | nil => exact fun s h => h
    | cons file files ih => exact fun s h => ih _ (h.loadFile file)
  exact hfold _ _ tabled_reopen

/-- The table after a restart has the keys with both files. -/
theorem entry_restart (hnamed : s.Named getFilename) (key : K) :
    s.restart.entry key =
      if getFilename key ∈ s.dataFiles.keys ∧
        (s.metaFiles.lookup (getFilename key)).map (·.key) = some key
      then s.metaFiles.lookup (getFilename key) else none := by
  have hnamed' : s.reopen.Named getFilename := hnamed
  exact entry_foldl hnamed' tabled_reopen _ key

/-- What the next process reads back. -/
theorem read_restart (hnamed : s.Named getFilename) (key : K) (data : Bytes) (m : Metadata K) :
    s.restart.read getFilename key = some (data, m) ↔
      s.metaFiles.lookup (getFilename key) = some m ∧ m.key = key ∧ ¬s.after m.expiry ∧
        s.dataFiles.lookup (getFilename key) = some data := by
  have hafter : ∀ t, s.restart.after t ↔ s.after t := by
    intro t
    rw [after, restart_now, after]
  rw [read, entry_restart hnamed, restart_dataFiles]
  cases hm : s.metaFiles.lookup (getFilename key) with
  | none => simp
  | some m' =>
    cases hd : s.dataFiles.lookup (getFilename key) with
    | none =>
      have hmem : getFilename key ∉ s.dataFiles.keys := AList.lookup_eq_none.mp hd
      simp [hmem]
    | some data' =>
      have hmem : getFilename key ∈ s.dataFiles.keys := AList.lookup_isSome.mp (by rw [hd]; rfl)
      by_cases hkey : m'.key = key
      · by_cases hexp : s.after m'.expiry
        · simp only [hmem, hkey, hexp, hafter, Option.map_some, and_self, if_true,
            Option.bind_some, Option.some.injEq]
          constructor
          · intro h
            cases h
          · rintro ⟨rfl, -, hnot, -⟩
            exact absurd hexp hnot
        · simp only [hmem, hkey, hexp, hafter, Option.map_some, and_self, if_true, if_false,
            Option.bind_some, Option.some.injEq, Prod.mk.injEq]
          constructor
          · rintro ⟨rfl, rfl⟩
            exact ⟨rfl, hkey, hexp, rfl⟩
          · rintro ⟨rfl, -, -, rfl⟩
            exact ⟨rfl, rfl⟩
      · simp only [hkey, Option.map_some, Option.some.injEq, and_false, if_false,
          Option.bind_none]
        constructor
        · intro h
          cases h
        · rintro ⟨rfl, h, -⟩
          exact absurd h hkey

end Cache

/-- Two files of one name that have not expired are of one `Set`. -/
def Paired (s : Cache K F) (trace : List (Event K)) : Prop :=
  ∀ file m data, s.metaFiles.lookup file = some m → s.dataFiles.lookup file = some data →
    ¬s.after m.expiry → MadeFor trace m data

theorem consistent_iff_paired {p : CachePool K F} (hnamed : p.shared.Named getFilename) :
    Consistent getFilename p ↔ Paired p.shared p.trace := by
  constructor
  · intro h file m data hm hdata hexp
    obtain rfl := hnamed file m hm
    exact (h m.key data m
      ((Cache.read_restart hnamed _ _ _).mpr ⟨hm, rfl, hexp, hdata⟩)).2
  · intro h key data m hread
    obtain ⟨hm, hkey, hexp, hdata⟩ := (Cache.read_restart hnamed _ _ _).mp hread
    exact ⟨hkey, h _ m data hm hdata hexp⟩

/-! ### What the turns keep -/

/-- The call is between its lock and its unlock. -/
def Point.locked : Point K → Bool
  | .sweeping _ _ | .sweepingMeta _ _ _ | .writing _ _ _ | .stamping _ _ _ | .saving _ _ _
  | .undoing _ | .deleting _ _ => true
  | .set _ _ _ | .get _ | .checking _ _ | .reading _ _ | .touching _ _ _ | .delete _ | .clean
  | .returned => false

/-- What a call knows of the cache. -/
def Knows (getFilename : K → F) (s : Cache K F) (trace : List (Event K)) : Point K → Prop
  | .checking key r | .reading key r | .touching key r _ => s.PointsTo key r
  | .stamping key data _ => s.dataFiles.lookup (getFilename key) = some data
  | .saving key data m => s.dataFiles.lookup (getFilename key) = some data ∧ m.key = key ∧
      MadeFor trace m data
  | _ => True

/-- The call is of the present process, between its lock and its unlock. -/
def Holds (s : Cache K F) (t : Call K) : Bool := t.process = s.process ∧ t.point.locked = true

structure Inv (getFilename : K → F) (s : Cache K F) (ts : List (Call K))
    (trace : List (Event K)) : Prop where
  named : s.Named getFilename
  table : s.Tabled
  processes : ∀ t ∈ ts, t.process ≤ s.process
  lock : ts.countP (Holds s) ≤ s.mutex.toNat
  calls : ∀ t ∈ ts, t.process = s.process → Knows getFilename s trace t.point

/-- What holds of one turn: the lock is handed over, and only under the lock the data files change
or an observer sees something. -/
structure Change (getFilename : K → F) (s s' : Cache K F) (trace seen : List (Event K))
    (point point' : Point K) : Prop where
  process : s'.process = s.process
  now : s'.now = s.now
  named : s'.Named getFilename
  table : s'.Tabled
  objects : ∀ key r, s.PointsTo key r → s'.PointsTo key r
  lock : s.mutex.toNat + point'.locked.toNat = s'.mutex.toNat + point.locked.toNat
  others : point.locked = false → s.mutex = true → s'.dataFiles = s.dataFiles ∧ seen = []
  knows : Knows getFilename s' (trace ++ seen) point'

section Turn

variable {s s' : Cache K F} {trace seen : List (Event K)} {point point' : Point K} {o : Outcome K}

omit [DecidableEq K] in
theorem Cache.Named.saveMetadata (h : s.Named getFilename) {key : K} {m : Metadata K}
    (hkey : m.key = key) : (s.saveMetadata getFilename key m).Named getFilename := by
  intro file m' hm
  unfold Cache.saveMetadata at hm
  rcases eq_or_ne file (getFilename key) with rfl | hne
  · rw [AList.lookup_insert] at hm
    rw [← Option.some.inj hm, hkey]
  · rw [AList.lookup_insert_ne hne] at hm
    exact h file m' hm

omit [DecidableEq K] in
theorem Cache.Named.removeMeta (h : s.Named getFilename) (key : K) :
    (s.removeMeta getFilename key).Named getFilename := by
  intro file m hm
  unfold Cache.removeMeta at hm
  rcases eq_or_ne file (getFilename key) with rfl | hne
  · rw [AList.lookup_erase] at hm
    cases hm
  · rw [AList.lookup_erase_ne hne] at hm
    exact h file m hm

omit [DecidableEq K] [DecidableEq F] in
theorem Cache.PointsTo.touch {key : K} {r : ℕ} (h : s.PointsTo key r) (object : ℕ) :
    (s.touch object).PointsTo key r := by
  obtain ⟨m, hm, hkey⟩ := h
  unfold Cache.PointsTo Cache.touch
  rw [List.getElem?_modify, hm]
  split_ifs
  · exact ⟨_, rfl, hkey⟩
  · exact ⟨_, rfl, hkey⟩

omit [DecidableEq K] in
theorem not_unlocked {P : Prop} (h : point.locked = true) : point.locked = false → P :=
  fun h' => absurd (h.symm.trans h') (by decide)

/-- A turn that makes no metadata. -/
theorem Change.of_objects_eq (hnamed : s'.Named getFilename) (hprocess : s'.process = s.process)
    (hnow : s'.now = s.now) (hobjects : s'.objects = s.objects)
    (htable : s.Tabled)
    (hlookup : ∀ key r, s'.metadata.lookup key = some r → s.metadata.lookup key = some r)
    (hlock : s.mutex.toNat + point'.locked.toNat = s'.mutex.toNat + point.locked.toNat)
    (hothers : point.locked = false → s.mutex = true → s'.dataFiles = s.dataFiles ∧ seen = [])
    (hknows : Knows getFilename s' (trace ++ seen) point') :
    Change getFilename s s' trace seen point point' := by
  have hpoints : ∀ key r, s.PointsTo key r → s'.PointsTo key r := by
    rintro key r ⟨m, hm, hkey⟩
    exact ⟨m, hobjects ▸ hm, hkey⟩
  exact
    { process := hprocess
      now := hnow
      named := hnamed
      table := fun key r hr => hpoints key r (htable key r (hlookup key r hr))
      objects := hpoints
      lock := hlock
      others := hothers
      knows := hknows }

/-- A turn that changes neither the metadata files, the table nor the lock. -/
theorem Change.of_eq (hnamed : s.Named getFilename)
    (htable : s.Tabled)
    (hlocked : point'.locked = point.locked)
    (hknows : Knows getFilename s trace point') :
    Change getFilename s s trace [] point point' :=
  .of_objects_eq hnamed rfl rfl rfl htable (fun _ _ => id) (by rw [hlocked])
    (fun _ _ => ⟨rfl, rfl⟩) (by simpa using hknows)

theorem change_endSweep {sweep : Sweep K} (hnamed : s.Named getFilename)
    (htable : s.Tabled)
    (hlocked : point.locked = true) (hmutex : s.mutex = true) :
    Change getFilename s (s.endSweep sweep).1 trace [] point (s.endSweep sweep).2 := by
  cases sweep with
  | evictLRU key data ttl => exact .of_eq hnamed htable hlocked.symm trivial
  | cleanExpired =>
    exact .of_objects_eq hnamed rfl rfl rfl htable (fun _ _ => id)
      (by rw [hlocked, hmutex]; rfl) (not_unlocked hlocked) trivial

/-- `Get` looks at the table, at the time and at the data file, and holds no lock. -/
def Point.looks : Point K → Bool
  | .get _ | .checking _ _ | .reading _ _ => true
  | _ => false

theorem advance_looks (hpoint : point.looks = true)
    (h : advance getFilename s point o = some (s', point', seen)) :
    s' = s ∧ seen = [] ∧ point.locked = false ∧ point'.locked = false ∧
      (s.Tabled → Knows getFilename s trace point → Knows getFilename s trace point') := by
  cases point with
  | get key =>
    cases o <;> simp only [advance, reduceCtorEq] at h
    split_ifs at h
    cases hr : s.metadata.lookup key with
    | none =>
      obtain ⟨rfl, rfl, rfl⟩ : _ ∧ _ ∧ _ := by simpa [hr] using h
      exact ⟨rfl, rfl, rfl, rfl, fun _ _ => trivial⟩
    | some r =>
      obtain ⟨rfl, rfl, rfl⟩ : _ ∧ _ ∧ _ := by simpa [hr] using h
      exact ⟨rfl, rfl, rfl, rfl, fun htable _ => htable key r hr⟩
  | checking key object =>
    cases o <;> simp only [advance, reduceCtorEq] at h
    obtain ⟨m, hm, hnext⟩ := Option.map_eq_some_iff.mp h
    obtain ⟨rfl, rfl, rfl⟩ : _ ∧ _ ∧ _ := by simpa using hnext
    split_ifs
    · exact ⟨rfl, rfl, rfl, rfl, fun _ _ => trivial⟩
    · exact ⟨rfl, rfl, rfl, rfl, fun _ hknows => hknows⟩
  | reading key object =>
    cases o <;> simp only [advance, reduceCtorEq] at h
    · cases hdata : s.dataFiles.lookup (getFilename key) with
      | none =>
        obtain ⟨rfl, rfl, rfl⟩ : _ ∧ _ ∧ _ := by simpa [hdata] using h
        exact ⟨rfl, rfl, rfl, rfl, fun _ _ => trivial⟩
      | some data =>
        obtain ⟨rfl, rfl, rfl⟩ : _ ∧ _ ∧ _ := by simpa [hdata] using h
        exact ⟨rfl, rfl, rfl, rfl, fun _ hknows => hknows⟩
    · obtain ⟨rfl, rfl, rfl⟩ : _ ∧ _ ∧ _ := by simpa using h
      exact ⟨rfl, rfl, rfl, rfl, fun _ _ => trivial⟩
  | _ => cases hpoint

theorem advance_set {key : K} {data : Bytes} {ttl : ℤ}
    (h : advance getFilename s (.set key data ttl) o = some (s', point', seen)) :
    ∃ entries, s.mutex = false ∧ entries.Perm s.metadata.entries ∧
      s' = (s.beginSet key data ttl entries).1 ∧ point' = (s.beginSet key data ttl entries).2 ∧
      seen = [] := by
  cases o with
  | range entries =>
    obtain ⟨⟨hfree, hperm⟩, h⟩ := Option.ite_none_right_eq_some.mp h
    cases h
    exact ⟨entries, hfree, hperm, rfl, rfl, rfl⟩
  | turn | ok | failed => cases h

section Advance

variable {key : K} {data : Bytes} {ttl : ℤ} {sweep : Sweep K} {items : List (Item K)}
  (hnamed : s.Named getFilename) (htable : s.Tabled)

include hnamed htable

theorem change_set
    (h : advance getFilename s (.set key data ttl) o = some (s', point', seen)) :
    Change getFilename s s' trace seen (.set key data ttl) point' := by
  obtain ⟨entries, hfree, -, rfl, rfl, rfl⟩ := advance_set h
  have hnext : (s.beginSet key data ttl entries).2.locked = true ∧
      Knows getFilename (s.beginSet key data ttl entries).1 (trace ++ [])
        (s.beginSet key data ttl entries).2 := by
    dsimp only [Cache.beginSet]
    split_ifs <;> exact ⟨rfl, trivial⟩
  exact .of_objects_eq hnamed rfl rfl rfl htable (fun _ _ => id)
    (by rw [hnext.1, hfree]; rfl) (by rw [hfree]; intros; contradiction) hnext.2

theorem change_sweeping (hmutex : s.mutex = true)
    (h : advance getFilename s (.sweeping sweep items) o = some (s', point', seen)) :
    Change getFilename s s' trace seen (.sweeping sweep items) point' := by
  cases o with
  | turn =>
    obtain ⟨-, h⟩ := Option.ite_none_right_eq_some.mp h
    obtain ⟨rfl, rfl, rfl⟩ : _ ∧ _ ∧ _ := by simpa using h
    exact change_endSweep hnamed htable rfl hmutex
  | ok =>
    cases items with
    | nil => cases h
    | cons item items =>
      obtain ⟨-, h⟩ := Option.ite_none_left_eq_some.mp h
      cases h
      exact .of_objects_eq hnamed rfl rfl rfl htable (fun _ _ => id) rfl (not_unlocked rfl) trivial
  | failed =>
    cases items with
    | nil => cases h
    | cons item items =>
      obtain ⟨-, h⟩ := Option.ite_none_left_eq_some.mp h
      cases h
      exact .of_eq hnamed htable rfl trivial
  | range => cases items <;> cases h

theorem change_sweepingMeta {item : Item K}
    (h : advance getFilename s (.sweepingMeta sweep item items) o = some (s', point', seen)) :
    Change getFilename s s' trace seen (.sweepingMeta sweep item items) point' := by
  cases o <;> cases h
  · exact .of_objects_eq (hnamed.removeMeta _) rfl rfl rfl htable
      (fun _ _ => lookup_of_lookup_erase) rfl (not_unlocked rfl) trivial
  · exact .of_objects_eq hnamed rfl rfl rfl htable (fun _ _ => lookup_of_lookup_erase) rfl
      (not_unlocked rfl) trivial

theorem change_writing (hmutex : s.mutex = true)
    (h : advance getFilename s (.writing key data ttl) o = some (s', point', seen)) :
    Change getFilename s s' trace seen (.writing key data ttl) point' := by
  cases o <;> cases h
  · exact .of_objects_eq hnamed rfl rfl rfl htable (fun _ _ => id) rfl (not_unlocked rfl)
      (AList.lookup_insert _)
  · exact .of_objects_eq hnamed rfl rfl rfl htable (fun _ _ => id) (by rw [hmutex]; rfl)
      (not_unlocked rfl) trivial

/-- The data that the file has are stamped, and so the new metadata are of a `Set`. -/
theorem change_stamping (hknows : Knows getFilename s trace (.stamping key data ttl))
    (h : advance getFilename s (.stamping key data ttl) o = some (s', point', seen)) :
    Change getFilename s s' trace seen (.stamping key data ttl) point' := by
  cases o <;> cases h
  refine .of_objects_eq hnamed rfl rfl rfl htable (fun _ _ => id) rfl (not_unlocked rfl)
    ⟨hknows, rfl, ?_, rfl⟩
  rw [made, List.foldl_append]
  simp

theorem change_saving {m : Metadata K} (hmutex : s.mutex = true)
    (hknows : Knows getFilename s trace (.saving key data m))
    (h : advance getFilename s (.saving key data m) o = some (s', point', seen)) :
    Change getFilename s s' trace seen (.saving key data m) point' := by
  obtain ⟨-, hkey, -⟩ := hknows
  cases o <;> cases h
  · have hpoints : ∀ k r, s.PointsTo k r → (s.add key m).PointsTo k r :=
      fun _ _ hp => hp.add key m
    exact ⟨rfl, rfl, hnamed.saveMetadata hkey, htable.add hkey, hpoints, by rw [hmutex]; rfl,
      not_unlocked rfl, trivial⟩
  · exact .of_eq hnamed htable rfl trivial

theorem change_undoing (hmutex : s.mutex = true)
    (h : advance getFilename s (.undoing key) o = some (s', point', seen)) :
    Change getFilename s s' trace seen (.undoing key) point' := by
  cases o <;> cases h
  · exact .of_objects_eq hnamed rfl rfl rfl htable (fun _ _ => id) (by rw [hmutex]; rfl)
      (not_unlocked rfl) trivial
  · exact .of_objects_eq hnamed rfl rfl rfl htable (fun _ _ => id) (by rw [hmutex]; rfl)
      (not_unlocked rfl) trivial

/-- The metadata that `Get` has in hand may have left the table; they are saved again. -/
theorem change_touching {object : ℕ} (hknows : Knows getFilename s trace (.touching key object data))
    (h : advance getFilename s (.touching key object data) o = some (s', point', seen)) :
    Change getFilename s s' trace seen (.touching key object data) point' := by
  obtain ⟨hmutex, h⟩ := Option.ite_none_left_eq_some.mp h
  obtain ⟨m, hm, h⟩ := Option.bind_eq_some_iff.mp h
  have hpoints : ∀ k r, s.PointsTo k r → (s.touch object).PointsTo k r :=
    fun _ _ hp => hp.touch object
  obtain ⟨m', hm', hkey⟩ := hpoints key object hknows
  obtain rfl := Option.some.inj (hm.symm.trans hm')
  cases o <;> cases h
  · have hnamed' : (s.touch object).Named getFilename := hnamed
    exact ⟨rfl, rfl, hnamed'.saveMetadata hkey, fun k r hr => hpoints k r (htable k r hr),
      hpoints, rfl, fun _ hlock => absurd hlock hmutex, trivial⟩
  · exact ⟨rfl, rfl, hnamed, fun k r hr => hpoints k r (htable k r hr), hpoints, rfl,
      fun _ hlock => absurd hlock hmutex, trivial⟩

theorem change_delete
    (h : advance getFilename s (.delete key) o = some (s', point', seen)) :
    Change getFilename s s' trace seen (.delete key) point' := by
  obtain ⟨hmutex, h⟩ := Option.ite_none_left_eq_some.mp h
  have hfree : s.mutex = false := by simpa using hmutex
  cases hr : s.metadata.lookup key with
  | none =>
    cases o <;> simp only [hr, reduceCtorEq] at h
    obtain ⟨rfl, rfl, rfl⟩ : _ ∧ _ ∧ _ := by simpa using h
    exact .of_objects_eq hnamed rfl rfl rfl htable (fun _ _ => id) rfl
      (fun _ hlock => absurd hlock hmutex) trivial
  | some r =>
    cases o <;> simp only [hr, reduceCtorEq] at h
    · obtain ⟨rfl, rfl, rfl⟩ : _ ∧ _ ∧ _ := by simpa using h
      exact .of_objects_eq hnamed rfl rfl rfl htable (fun _ _ => id) (by rw [hfree]; rfl)
        (fun _ hlock => absurd hlock hmutex) trivial
    · obtain ⟨rfl, rfl, rfl⟩ : _ ∧ _ ∧ _ := by simpa using h
      exact .of_objects_eq hnamed rfl rfl rfl htable (fun _ _ => id) (by rw [hfree]; rfl)
        (fun _ hlock => absurd hlock hmutex) trivial

theorem change_deleting {object : ℕ} (hmutex : s.mutex = true)
    (h : advance getFilename s (.deleting key object) o = some (s', point', seen)) :
    Change getFilename s s' trace seen (.deleting key object) point' := by
  obtain ⟨m, -, h⟩ := Option.bind_eq_some_iff.mp h
  cases o <;> cases h
  · exact .of_objects_eq (hnamed.removeMeta key) rfl rfl rfl htable
      (fun _ _ => lookup_of_lookup_erase) (by rw [hmutex]; rfl) (not_unlocked rfl) trivial
  · exact .of_objects_eq hnamed rfl rfl rfl htable (fun _ _ => lookup_of_lookup_erase)
      (by rw [hmutex]; rfl) (not_unlocked rfl) trivial

theorem change_clean (h : advance getFilename s .clean o = some (s', point', seen)) :
    Change getFilename s s' trace seen .clean point' := by
  cases o with
  | range entries =>
    obtain ⟨hfree, h⟩ := Option.ite_none_right_eq_some.mp h
    cases h
    exact .of_objects_eq hnamed rfl rfl rfl htable (fun _ _ => id) (by rw [hfree.1]; rfl)
      (by rw [hfree.1]; intros; contradiction) trivial
  | turn | ok | failed => cases h

theorem change_advance (hlocked : point.locked = true → s.mutex = true)
    (hknows : Knows getFilename s trace point)
    (h : advance getFilename s point o = some (s', point', seen)) :
    Change getFilename s s' trace seen point point' := by
  cases point with
  | set key data ttl => exact change_set hnamed htable h
  | sweeping sweep items => exact change_sweeping hnamed htable (hlocked rfl) h
  | sweepingMeta sweep item items => exact change_sweepingMeta hnamed htable h
  | writing key data ttl => exact change_writing hnamed htable (hlocked rfl) h
  | stamping key data ttl => exact change_stamping hnamed htable hknows h
  | saving key data m => exact change_saving hnamed htable (hlocked rfl) hknows h
  | undoing key => exact change_undoing hnamed htable (hlocked rfl) h
  | get | checking | reading =>
    obtain ⟨rfl, rfl, hpoint, hpoint', hknows'⟩ := advance_looks rfl h
    exact .of_eq hnamed htable (hpoint'.trans hpoint.symm) (hknows' htable hknows)
  | touching key object data => exact change_touching hnamed htable hknows h
  | delete key => exact change_delete hnamed htable h
  | deleting key object => exact change_deleting hnamed htable (hlocked rfl) h
  | clean => exact change_clean hnamed htable h
  | returned => cases o <;> cases h

end Advance

theorem resume_cases {t : Call K} {r : CacheTurn K F} (h : resume getFilename s t o = some r) :
    t.process = s.process ∧ r.task.process = t.process ∧ r.spawned = [] ∧
      advance getFilename s t.point o = some (r.shared, r.task.point, r.seen) := by
  unfold resume at h
  split_ifs at h with hprocess
  obtain ⟨e, he, rfl⟩ := Option.map_eq_some_iff.mp h
  exact ⟨hprocess, rfl, rfl, he⟩

theorem Inv.perm {ts ts' : List (Call K)} (h : Inv getFilename s ts trace) (hp : ts'.Perm ts) :
    Inv getFilename s ts' trace where
  named := h.named
  table := h.table
  processes t ht := h.processes t (hp.mem_iff.mp ht)
  lock := hp.countP_eq _ ▸ h.lock
  calls t ht := h.calls t (hp.mem_iff.mp ht)

/-- What an unlocked call knows is about the metadata only. -/
theorem knows_of_unlocked (hlocked : point.locked = false)
    (hpoints : ∀ key r, s.PointsTo key r → s'.PointsTo key r)
    (h : Knows getFilename s trace point) (seen : List (Event K)) :
    Knows getFilename s' (trace ++ seen) point := by
  cases point with
  | checking key r | reading key r | touching key r data => exact hpoints key r h
  | set _ _ _ | get _ | delete _ | clean | returned => trivial
  | sweeping _ _ | sweepingMeta _ _ _ | writing _ _ _ | stamping _ _ _ | saving _ _ _
  | undoing _ | deleting _ _ => cases hlocked

theorem knows_of_dataFiles_eq (hdata : s'.dataFiles = s.dataFiles)
    (hpoints : ∀ key r, s.PointsTo key r → s'.PointsTo key r)
    (h : Knows getFilename s trace point) : Knows getFilename s' trace point := by
  cases point with
  | checking key r | reading key r | touching key r data => exact hpoints key r h
  | stamping key data ttl | saving key data m => simpa only [Knows, hdata] using h
  | _ => trivial

omit [DecidableEq K] [DecidableEq F] in
theorem holds_iff {t : Call K} :
    Holds s t = true ↔ t.process = s.process ∧ t.point.locked = true := by
  simp [Holds]

theorem inv_resume {t : Call K} {others : List (Call K)} {r : CacheTurn K F}
    (hinv : Inv getFilename s (t :: others) trace) (hr : resume getFilename s t o = some r) :
    Inv getFilename r.shared (r.task :: others) (trace ++ r.seen) ∧
      Change getFilename s r.shared trace r.seen t.point r.task.point := by
  obtain ⟨hprocess, htask, -, hadvance⟩ := resume_cases hr
  have hlock := hinv.lock
  have htoNat : ∀ t : Call K, t.process = s.process →
      (if Holds s t = true then 1 else 0) = t.point.locked.toNat := by
    intro t ht
    cases hl : t.point.locked <;> simp [Holds, ht, hl]
  rw [List.countP_cons, htoNat t hprocess] at hlock
  have hlocked : t.point.locked = true → s.mutex = true := by
    intro hl
    rw [hl] at hlock
    by_contra hmutex
    rw [Bool.not_eq_true] at hmutex
    rw [hmutex, Bool.toNat_true, Bool.toNat_false] at hlock
    omega
  have hchange := change_advance hinv.named hinv.table hlocked
    (hinv.calls t List.mem_cons_self hprocess) hadvance
  have hholds : ∀ u : Call K, Holds r.shared u = Holds s u := by
    intro u
    rw [Holds, Holds, hchange.process]
  refine ⟨⟨hchange.named, hchange.table, ?_, ?_, ?_⟩, hchange⟩
  · rw [hchange.process]
    refine List.forall_mem_cons.mpr ⟨(htask.trans hprocess).le, fun u hu => ?_⟩
    exact hinv.processes u (List.mem_cons_of_mem _ hu)
  · have hsum := hchange.lock
    rw [List.countP_cons, List.countP_congr (fun u _ => by rw [hholds u]), hholds,
      htoNat _ (htask.trans hprocess)]
    omega
  · refine List.forall_mem_cons.mpr ⟨fun _ => hchange.knows, fun u hu hpu => ?_⟩
    rw [hchange.process] at hpu
    have hknows := hinv.calls u (List.mem_cons_of_mem _ hu) hpu
    cases hul : u.point.locked with
    | false => exact knows_of_unlocked hul hchange.objects hknows r.seen
    | true =>
      -- Another call has the lock, so this turn changes no data file and shows nothing.
      have hpos : 0 < others.countP (Holds s) :=
        List.countP_pos_iff.mpr ⟨u, hu, holds_iff.mpr ⟨hpu, hul⟩⟩
      have hmutex : s.mutex = true := by
        by_contra hmutex
        rw [Bool.not_eq_true] at hmutex
        rw [hmutex, Bool.toNat_false] at hlock
        omega
      have hfree : t.point.locked = false := by
        by_contra hheld
        rw [Bool.not_eq_false] at hheld
        rw [hheld, hmutex, Bool.toNat_true] at hlock
        omega
      obtain ⟨hdata, hseen⟩ := hchange.others hfree hmutex
      rw [hseen, List.append_nil]
      exact knows_of_dataFiles_eq hdata hchange.objects hknows

theorem inv_event {ts : List (Call K)} {e : External K}
    {r : Effect (Cache K F) (Call K) (Event K)} (hinv : Inv getFilename s ts trace)
    (hr : event s e = some r) : Inv getFilename r.shared (r.spawned ++ ts) (trace ++ r.seen) := by
  have hcall : ∀ point : Point K, point.locked = false → Knows getFilename s trace point →
      Inv getFilename s (⟨s.process, point⟩ :: ts) trace := by
    intro point hlocked hknows
    refine ⟨hinv.named, hinv.table, List.forall_mem_cons.mpr ⟨le_rfl, hinv.processes⟩, ?_,
      List.forall_mem_cons.mpr ⟨fun _ => hknows, hinv.calls⟩⟩
    rw [List.countP_cons_of_neg (by simp [Holds, hlocked])]
    exact hinv.lock
  cases e with
  | set key data ttl =>
    cases hr
    simpa using hcall (.set key data ttl) rfl trivial
  | get key =>
    cases hr
    simpa using hcall (.get key) rfl trivial
  | delete key =>
    cases hr
    simpa using hcall (.delete key) rfl trivial
  | clean =>
    cases hr
    simpa using hcall .clean rfl trivial
  | tick d =>
    cases hr
    have hknows : ∀ t ∈ ts, t.process = s.process →
        Knows getFilename { s with now := s.now + d } trace t.point :=
      fun t ht hpt => knows_of_dataFiles_eq rfl (fun _ _ => id) (hinv.calls t ht hpt)
    simpa using (⟨hinv.named, hinv.table, hinv.processes, hinv.lock, hknows⟩ :
      Inv getFilename { s with now := s.now + d } ts trace)
  | restart =>
    cases hr
    have hprocess : ∀ t ∈ ts, t.process < s.restart.process := by
      intro t ht
      have hle := hinv.processes t ht
      rw [Cache.restart_process]
      omega
    have hinv' : Inv getFilename s.restart ts trace := by
      refine ⟨fun file m hm => hinv.named file m (by simpa using hm), Cache.tabled_restart,
        fun t ht => (hprocess t ht).le, ?_, fun t ht hpt => absurd hpt (hprocess t ht).ne⟩
      have hnone : ts.countP (Holds s.restart) = 0 := by
        refine List.countP_eq_zero.mpr fun t ht hholds => ?_
        exact (hprocess t ht).ne (holds_iff.mp hholds).1
      rw [hnone]
      exact Nat.zero_le _
    simpa using hinv'

end Turn

/-! ### Pairs of files -/

section Pairs

variable {s s' : Cache K F} {trace trace' seen : List (Event K)} {point point' : Point K}
  {o : Outcome K}

/-- The pairs are of a cache that has no more files, and of no fewer `Set`s. -/
theorem Paired.mono (h : Paired s trace)
    (hmeta : ∀ file m, s'.metaFiles.lookup file = some m → s.metaFiles.lookup file = some m)
    (hdata : ∀ file data, s'.dataFiles.lookup file = some data →
      s.dataFiles.lookup file = some data)
    (hnow : s.now ≤ s'.now) (hmade : ∀ key, made key trace ⊆ made key trace') :
    Paired s' trace' := by
  intro file m data hm hd hexp
  have hexp' : ¬s.after m.expiry := fun hafter => hexp (lt_of_lt_of_le hafter hnow)
  have hfor := h file m data (hmeta file m hm) (hdata file data hd) hexp'
  exact ⟨hmade _ hfor.1, hfor.2⟩

theorem Paired.of_eq (h : Paired s trace) (hmeta : s'.metaFiles = s.metaFiles)
    (hdata : s'.dataFiles = s.dataFiles) (hnow : s'.now = s.now) : Paired s' trace :=
  h.mono (by simp [hmeta]) (by simp [hdata]) hnow.ge fun _ => List.Subset.refl _

theorem paired_writeData (h : Paired s trace) (key : K) (data : Bytes) :
    Paired (s.writeData getFilename key data) trace ↔
      ∀ m ∈ s.metaFiles.lookup (getFilename key), ¬s.after m.expiry → MadeFor trace m data := by
  constructor
  · intro h' m hm hexp
    exact h' _ m data hm (AList.lookup_insert _) hexp
  · intro hfor file m d hm hd hexp
    rcases eq_or_ne file (getFilename key) with rfl | hne
    · obtain rfl := eq_of_lookup_insert hd
      exact hfor m hm hexp
    · exact h file m d hm ((AList.lookup_insert_ne hne).symm.trans hd) hexp

theorem paired_saveMetadata (h : Paired s trace) (key : K) (m : Metadata K) :
    Paired (s.saveMetadata getFilename key m) trace ↔
      (¬s.after m.expiry → ∀ data ∈ s.dataFiles.lookup (getFilename key),
        MadeFor trace m data) := by
  constructor
  · intro h' hexp data hd
    exact h' _ m data (AList.lookup_insert _) hd hexp
  · intro hfor file m' d hm hd hexp
    rcases eq_or_ne file (getFilename key) with rfl | hne
    · obtain rfl := eq_of_lookup_insert hm
      exact hfor hexp d hd
    · exact h file m' d ((AList.lookup_insert_ne hne).symm.trans hm) hd hexp

theorem made_append_deleted (key key' : K) :
    made key (trace ++ [.deleted key']) = if key' = key then [] else made key trace := by
  simp [made, List.foldl_append]

theorem made_append_made (key key' : K) (data : Bytes) (expiry : ℤ) :
    made key trace ⊆ made key (trace ++ [.made key' data expiry]) := by
  have hmade : made key (trace ++ [.made key' data expiry]) =
      if key' = key then (data, expiry) :: made key trace else made key trace := by
    simp [made, List.foldl_append]
  rw [hmade]
  split_ifs
  · exact List.subset_cons_self _ _
  · exact List.Subset.refl _

theorem paired_deleted (hnamed : s.Named getFilename) (h : Paired s trace) (key : K) :
    Paired s (trace ++ [.deleted key]) ↔ Gone getFilename s key := by
  constructor
  · intro h' m hm hkey hexp
    cases hd : s.dataFiles.lookup (getFilename key) with
    | none => rfl
    | some data =>
      have hfor := (h' _ m data hm hd hexp).1
      rw [made_append_deleted, if_pos hkey.symm] at hfor
      cases hfor
  · intro hgone file m data hm hd hexp
    have hfor := h file m data hm hd hexp
    have hne : key ≠ m.key := by
      rintro rfl
      obtain rfl := hnamed file m hm
      have hnone := hgone m hm rfl hexp
      rw [hd] at hnone
      cases hnone
    refine ⟨?_, hfor.2⟩
    rw [made_append_deleted, if_neg hne]
    exact hfor.1

omit [DecidableEq K] in
theorem gone_of_metaFiles {key : K} (h : s.metaFiles.lookup (getFilename key) = none) :
    Gone getFilename s key := by
  intro m hm
  rw [h] at hm
  cases hm

/-- A turn that writes no file and ends no `Delete`. -/
theorem safe_iff_of_le (hpaired : Paired s trace) (hsafe : Safe getFilename s trace point o)
    (hmeta : ∀ file m, s'.metaFiles.lookup file = some m → s.metaFiles.lookup file = some m)
    (hdata : ∀ file data, s'.dataFiles.lookup file = some data →
      s.dataFiles.lookup file = some data) (hnow : s'.now = s.now) :
    Safe getFilename s trace point o ↔ Paired s' (trace ++ []) := by
  rw [List.append_nil]
  exact iff_of_true hsafe (hpaired.mono hmeta hdata hnow.ge fun _ => List.Subset.refl _)

/-- A turn that leaves the files. -/
theorem safe_iff_of_eq (hpaired : Paired s trace) (hsafe : Safe getFilename s trace point o)
    (hmeta : s'.metaFiles = s.metaFiles) (hdata : s'.dataFiles = s.dataFiles)
    (hnow : s'.now = s.now) : Safe getFilename s trace point o ↔ Paired s' (trace ++ []) :=
  safe_iff_of_le hpaired hsafe (by simp [hmeta]) (by simp [hdata]) hnow

/-- The pairs survive a turn just when it is safe. -/
theorem paired_advance (hnamed : s.Named getFilename) (hknows : Knows getFilename s trace point)
    (hpaired : Paired s trace) (h : advance getFilename s point o = some (s', point', seen)) :
    Safe getFilename s trace point o ↔ Paired s' (trace ++ seen) := by
  cases point with
  | set key data ttl | clean =>
    cases o <;> simp only [advance, reduceCtorEq] at h
    split_ifs at h
    obtain ⟨rfl, rfl, rfl⟩ : _ ∧ _ ∧ _ := by simpa using h
    exact safe_iff_of_eq hpaired trivial rfl rfl rfl
  | sweeping sweep items =>
    cases o with
    | turn =>
      simp only [advance] at h
      split_ifs at h
      obtain ⟨rfl, rfl, rfl⟩ : _ ∧ _ ∧ _ := by simpa using h
      cases sweep <;> exact safe_iff_of_eq hpaired trivial rfl rfl rfl
    | ok =>
      cases items <;> simp only [advance, reduceCtorEq] at h
      split_ifs at h
      obtain ⟨rfl, rfl, rfl⟩ : _ ∧ _ ∧ _ := by simpa using h
      exact safe_iff_of_le hpaired trivial (fun _ _ => id) (fun _ _ => lookup_of_lookup_erase) rfl
    | failed =>
      cases items <;> simp only [advance, reduceCtorEq] at h
      split_ifs at h
      obtain ⟨rfl, rfl, rfl⟩ : _ ∧ _ ∧ _ := by simpa using h
      exact safe_iff_of_eq hpaired trivial rfl rfl rfl
    | range => cases items <;> simp only [advance, reduceCtorEq] at h
  | sweepingMeta sweep item items =>
    cases o <;> simp only [advance, reduceCtorEq] at h
    · obtain ⟨rfl, rfl, rfl⟩ : _ ∧ _ ∧ _ := by simpa using h
      exact safe_iff_of_le hpaired trivial (fun _ _ => lookup_of_lookup_erase) (fun _ _ => id) rfl
    · obtain ⟨rfl, rfl, rfl⟩ : _ ∧ _ ∧ _ := by simpa using h
      exact safe_iff_of_eq hpaired trivial rfl rfl rfl
  | writing key data ttl =>
    cases o <;> simp only [advance, reduceCtorEq] at h
    · obtain ⟨rfl, rfl, rfl⟩ : _ ∧ _ ∧ _ := by simpa using h
      rw [List.append_nil]
      exact (paired_writeData hpaired key data).symm
    · obtain ⟨rfl, rfl, rfl⟩ : _ ∧ _ ∧ _ := by simpa using h
      exact safe_iff_of_eq hpaired trivial rfl rfl rfl
  | stamping key data ttl =>
    cases o <;> simp only [advance, reduceCtorEq] at h
    obtain ⟨rfl, rfl, rfl⟩ : _ ∧ _ ∧ _ := by simpa using h
    exact iff_of_true trivial (hpaired.mono (fun _ _ => id) (fun _ _ => id) le_rfl
      fun k => made_append_made k key data _)
  | saving key data m =>
    obtain ⟨hdata, -, hfor⟩ := hknows
    cases o <;> simp only [advance, reduceCtorEq] at h
    · obtain ⟨rfl, rfl, rfl⟩ : _ ∧ _ ∧ _ := by simpa using h
      have hsaved : Paired (s.saveMetadata getFilename key m) trace := by
        refine (paired_saveMetadata hpaired key m).mpr fun _ d hd => ?_
        obtain rfl := Option.some.inj (hdata.symm.trans hd)
        exact hfor
      rw [List.append_nil]
      exact iff_of_true trivial (hsaved.of_eq rfl rfl rfl)
    · obtain ⟨rfl, rfl, rfl⟩ : _ ∧ _ ∧ _ := by simpa using h
      exact safe_iff_of_eq hpaired trivial rfl rfl rfl
  | undoing key =>
    cases o <;> simp only [advance, reduceCtorEq] at h
    · obtain ⟨rfl, rfl, rfl⟩ : _ ∧ _ ∧ _ := by simpa using h
      exact safe_iff_of_le hpaired trivial (fun _ _ => id) (fun _ _ => lookup_of_lookup_erase) rfl
    · obtain ⟨rfl, rfl, rfl⟩ : _ ∧ _ ∧ _ := by simpa using h
      exact safe_iff_of_eq hpaired trivial rfl rfl rfl
  | get key =>
    cases o <;> simp only [advance, reduceCtorEq] at h
    split_ifs at h
    cases hr : s.metadata.lookup key with
    | none =>
      obtain ⟨rfl, rfl, rfl⟩ : _ ∧ _ ∧ _ := by simpa [hr] using h
      exact safe_iff_of_eq hpaired trivial rfl rfl rfl
    | some r =>
      obtain ⟨rfl, rfl, rfl⟩ : _ ∧ _ ∧ _ := by simpa [hr] using h
      exact safe_iff_of_eq hpaired trivial rfl rfl rfl
  | checking key object =>
    cases o <;> simp only [advance, reduceCtorEq] at h
    obtain ⟨m, hm, hnext⟩ := Option.map_eq_some_iff.mp h
    obtain ⟨rfl, rfl, rfl⟩ : _ ∧ _ ∧ _ := by simpa using hnext
    exact safe_iff_of_eq hpaired trivial rfl rfl rfl
  | reading key object =>
    cases o <;> simp only [advance, reduceCtorEq] at h
    · cases hdata : s.dataFiles.lookup (getFilename key) with
      | none =>
        obtain ⟨rfl, rfl, rfl⟩ : _ ∧ _ ∧ _ := by simpa [hdata] using h
        exact safe_iff_of_eq hpaired trivial rfl rfl rfl
      | some data =>
        obtain ⟨rfl, rfl, rfl⟩ : _ ∧ _ ∧ _ := by simpa [hdata] using h
        exact safe_iff_of_eq hpaired trivial rfl rfl rfl
    · obtain ⟨rfl, rfl, rfl⟩ : _ ∧ _ ∧ _ := by simpa using h
      exact safe_iff_of_eq hpaired trivial rfl rfl rfl
  | touching key object data =>
    simp only [advance] at h
    split_ifs at h
    obtain ⟨m, hm, h⟩ := Option.bind_eq_some_iff.mp h
    cases o <;> simp only [reduceCtorEq] at h
    · obtain ⟨rfl, rfl, rfl⟩ : _ ∧ _ ∧ _ := by simpa using h
      obtain ⟨m', hm', rfl⟩ : ∃ m', s.objects[object]? = some m' ∧
          m = { m' with lastUsed := s.now } := by
        simpa [Cache.touch, eq_comm] using hm
      have htouched : Paired (s.touch object) trace := hpaired.of_eq rfl rfl rfl
      rw [List.append_nil, paired_saveMetadata htouched]
      constructor
      · exact fun hsafe => hsafe m' hm'
      · intro hfor m'' hm''
        obtain rfl := Option.some.inj (hm'.symm.trans hm'')
        exact hfor
    · obtain ⟨rfl, rfl, rfl⟩ : _ ∧ _ ∧ _ := by simpa using h
      exact safe_iff_of_eq hpaired trivial rfl rfl rfl
  | delete key =>
    simp only [advance] at h
    split_ifs at h
    cases hr : s.metadata.lookup key with
    | none =>
      cases o <;> simp only [hr, reduceCtorEq] at h
      obtain ⟨rfl, rfl, rfl⟩ : _ ∧ _ ∧ _ := by simpa using h
      exact (paired_deleted hnamed hpaired key).symm
    | some r =>
      cases o <;> simp only [hr, reduceCtorEq] at h
      · obtain ⟨rfl, rfl, rfl⟩ : _ ∧ _ ∧ _ := by simpa using h
        exact safe_iff_of_le hpaired trivial (fun _ _ => id) (fun _ _ => lookup_of_lookup_erase)
          rfl
      · obtain ⟨rfl, rfl, rfl⟩ : _ ∧ _ ∧ _ := by simpa using h
        exact safe_iff_of_eq hpaired trivial rfl rfl rfl
  | deleting key object =>
    simp only [advance] at h
    obtain ⟨m, -, h⟩ := Option.bind_eq_some_iff.mp h
    cases o <;> simp only [reduceCtorEq] at h
    · obtain ⟨rfl, rfl, rfl⟩ : _ ∧ _ ∧ _ := by simpa using h
      have hremoved : Paired (s.removeMeta getFilename key) trace :=
        hpaired.mono (fun _ _ => lookup_of_lookup_erase) (fun _ _ => id) le_rfl
          fun _ => List.Subset.refl _
      have hpairs := (paired_deleted (hnamed.removeMeta key) hremoved key).mpr
        (gone_of_metaFiles (AList.lookup_erase _ _))
      exact iff_of_true trivial (hpairs.of_eq rfl rfl rfl)
    · obtain ⟨rfl, rfl, rfl⟩ : _ ∧ _ ∧ _ := by simpa using h
      have hpairs := paired_deleted hnamed hpaired key
      exact hpairs.symm
  | returned => cases o <;> simp only [advance, reduceCtorEq] at h

end Pairs

/-! ### Every run -/

/-- The invariant of a pool. -/
def PoolInv (getFilename : K → F) (p : CachePool K F) : Prop :=
  Inv getFilename p.shared p.tasks p.trace

theorem poolInv_step {p q : CachePool K F} {a : Action (Outcome K) (External K)}
    (h : PoolInv getFilename p) (hstep : (system getFilename).step p a = some q) :
    PoolInv getFilename q := by
  obtain ⟨i, o, t, r, others, rfl, -, hr, hshared, htrace, hp, hq⟩ |
    ⟨e, r, rfl, he, hshared, htrace, hq⟩ := System.step_perm hstep
  · have hinv := (inv_resume (Inv.perm h hp.symm) hr).1
    rw [(resume_cases hr).2.2.1] at hq
    rw [PoolInv, hshared, htrace]
    exact hinv.perm hq
  · rw [PoolInv, hshared, htrace]
    exact (inv_event h he).perm hq

/-- The state after a step is consistent just when the step is safe. -/
theorem stepSafe_iff {p q : CachePool K F} {a : Action (Outcome K) (External K)}
    (h : PoolInv getFilename p) (hcons : Consistent getFilename p)
    (hstep : (system getFilename).step p a = some q) :
    StepSafe getFilename p a ↔ Consistent getFilename q := by
  have hq : PoolInv getFilename q := poolInv_step h hstep
  rw [consistent_iff_paired hq.named]
  have hpaired := (consistent_iff_paired h.named).mp hcons
  obtain ⟨i, o, t, r, rfl, ht, hr, rfl⟩ | ⟨e, r, rfl, hr, rfl⟩ := System.step_cases hstep
  · obtain ⟨hprocess, -, -, hadvance⟩ := resume_cases hr
    have hsafe := paired_advance h.named
      (h.calls t (List.mem_of_getElem? ht) hprocess) hpaired hadvance
    refine Iff.trans ⟨fun hs => hs t ht, fun hs t' ht' => ?_⟩ hsafe
    obtain rfl := Option.some.inj (ht.symm.trans ht')
    exact hs
  · have hevent : Paired r.shared p.trace ∧ r.seen = [] := by
      cases e with
      | tick d =>
        cases hr
        exact ⟨hpaired.mono (fun _ _ => id) (fun _ _ => id) (by simp)
          fun _ => List.Subset.refl _, rfl⟩
      | restart =>
        cases hr
        exact ⟨hpaired.of_eq Cache.restart_metaFiles Cache.restart_dataFiles Cache.restart_now,
          rfl⟩
      | set _ _ _ | get _ | delete _ | clean =>
        cases hr
        exact ⟨hpaired, rfl⟩
    rw [hevent.2, List.append_nil]
    exact iff_of_true trivial hevent.1

theorem poolInv_newDiskCache (getFilename : K → F) (maxSize : ℤ) :
    PoolInv getFilename (newDiskCache maxSize : CachePool K F) where
  named file m hm := by
    rw [newDiskCache, AList.lookup_empty] at hm
    cases hm
  table key r hr := by
    rw [newDiskCache, AList.lookup_empty] at hr
    cases hr
  processes t ht := by cases ht
  lock := le_rfl
  calls t ht := by cases ht

/-- A run leaves a consistent cache at every cut just when all its turns are safe. -/
theorem consistent_iff_safe (getFilename : K → F) (maxSize : ℤ)
    (actions : List (Action (Outcome K) (External K))) :
    (system getFilename).Throughout (Consistent getFilename) (newDiskCache maxSize) actions ↔
      (system getFilename).Along (StepSafe getFilename) (newDiskCache maxSize) actions := by
  have hinv := poolInv_newDiskCache getFilename maxSize
  have hcons : Consistent getFilename (newDiskCache maxSize : CachePool K F) := by
    refine (consistent_iff_paired hinv.named).mpr fun file m data hm => ?_
    rw [newDiskCache, AList.lookup_empty] at hm
    cases hm
  exact System.throughout_iff_along (fun _ _ _ h hstep => poolInv_step h hstep)
    (fun _ _ _ h hP hstep => stepSafe_iff h hP hstep) hinv hcons actions

/-- A `Set`, and a second one up to the rename of its data. -/
def overwriteRun : List (Action (Outcome ℕ) (External ℕ)) :=
  [.event (.set 7 [1] 100), .resume 0 (.range []), .resume 0 .ok, .resume 0 .turn, .resume 0 .ok,
    .event (.set 7 [2, 2] 100), .resume 1 (.range [⟨7, 0⟩]), .resume 1 .ok]

/-- The next process reads the second data with the size and the expiry of the first. -/
theorem overwrite_inconsistent :
    ¬∀ actions : List (Action (Outcome ℕ) (External ℕ)),
      (system (id : ℕ → ℕ)).Throughout (Consistent id) (newDiskCache 1000) actions := by
  intro hall
  obtain ⟨p, hp⟩ : ∃ p, (system (id : ℕ → ℕ)).run (newDiskCache 1000) overwriteRun = some p ∧
      p.shared.restart.read id 7 = some ([2, 2], ⟨7, 100, 0, 1, 0⟩) :=
    ⟨_, rfl, by decide⟩
  obtain ⟨-, -, hsize⟩ := (hall overwriteRun).last hp.1 7 _ _ hp.2
  exact absurd hsize (by decide)

end AllInOneBackup.PanSou.DiskCache
