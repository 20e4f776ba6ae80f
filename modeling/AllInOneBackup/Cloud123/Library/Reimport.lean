import AllInOneBackup.Cloud123.Library.Runs

/-! Imports in the mode `merge`, and the same one a second time. The row of the source is written
with what the import has brought, not with what the source has, so a second import leaves it with
no counts; and `import_payload` looks for the path of a file, where it stores one without a path
under its name. -/

namespace AllInOneBackup.Cloud123.Library

open Data Data.Keyed

/-! ### The property and the condition -/

/-- A work without the counts and the technical attributes of its files. -/
def Work.curated (w : Work) : Work :=
  { w with fileCount := 0, videoCount := 0, totalSize := 0, resolution := [], edition := [], tech := [] }

/-- The works have what they had, but for what their files say. -/
def WorksKept (db db' : Db) : Prop := ∀ w ∈ db.works, ∃ w' ∈ db'.works, w'.curated = w.curated

def FilesKept (db db' : Db) : Prop := ∀ f ∈ db.files, f ∈ db'.files

/-- Nothing is changed but the time of the import. -/
structure OnlyTime (name : Text) (db db' : Db) : Prop where
  works : ∀ w, w ∈ db'.works ↔ w ∈ db.works
  files : ∀ f, f ∈ db'.files ↔ f ∈ db.files
  playback : ∀ p, p ∈ db'.playback ↔ p ∈ db.playback
  others : ∀ s, s.name ≠ name → (s ∈ db'.sources ↔ s ∈ db.sources)
  source : ∀ s ∈ db.sources, s.name = name → ∃ t, { s with importedAt := t } ∈ db'.sources

/-- The counts of the source are those that the library has. -/
def Described (name : Text) (db : Db) : Prop := ∀ s ∈ db.sources, s ∈ (recountSource name db).sources

/-- The two imports. -/
inductive Kind
  | payload
  | stream (batchSize : ℤ)

section Kinds

variable (I : Inference) (videoExt : List Text)

/-- An import in the mode `merge`. -/
def importMerge (kind : Kind) (importedAt name commonPath : Text) (files : List Entry) (db : Db) :
    Db × Report :=
  match kind with
  | .payload => importPayload I videoExt .merge importedAt name commonPath files db
  | .stream batchSize => importStream I videoExt .merge batchSize importedAt name commonPath files db

/-- The files of a payload as the import reads them. -/
def payloadFiles (commonPath : Text) (files : List Entry) : List (Text × Entry × Text) :=
  splitFiles (Text.strip '/' commonPath) (joined commonPath files)

def pathsOf (db : Db) (dir : Text) : List Text := (filesIn db.files dir).map (·.path)

/-- All works of the import are there, with all paths; a stream brings nothing to a large work. -/
def Known (kind : Kind) (commonPath : Text) (files : List Entry) (db : Db) : Prop :=
  match kind with
  | .payload => ∀ e ∈ payloadFiles commonPath files,
    db.works.Has e.1 ∧ e.2.1.path ∈ pathsOf db e.1
  | .stream _ => ∀ f ∈ files.filterMap (streamRow I videoExt commonPath),
    db.works.Has f.dir ∧ (MERGE_PATH_SET_LIMIT < (filesIn db.files f.dir).length ∨
      f.path ∈ pathsOf db f.dir)

/-- The rows that the import may write over rows that are there: of a work that is there those of
files whose path is not, in a payload; and of a new work all. -/
def overwriting (kind : Kind) (commonPath : Text) (files : List Entry) (db : Db) : List WorkFile :=
  match kind with
  | .payload => ((payloadFiles commonPath files).filter fun e =>
      ¬db.works.Has e.1 ∨ e.2.1.path ∉ pathsOf db e.1).map fun e => payloadRow I videoExt e.1 e.2.1
  | .stream _ => (files.filterMap (streamRow I videoExt commonPath)).filter fun f =>
      ¬db.works.Has f.dir

/-- Of the rows with the key of one that is there, the last is that one. -/
def Harmless (db : Db) (rows : List WorkFile) : Prop :=
  ∀ f ∈ db.files, ∀ r, (rows.filter (·.key = f.key)).getLast? = some r → r = f

/-- An import keeps the works and the files, and the same one again changes nothing but its time,
and leaves the source with its counts. -/
structure MergeRight (kind : Kind) (importedAt again name commonPath : Text) (files : List Entry)
    (db : Db) : Prop where
  worksKept : WorksKept db (importMerge I videoExt kind importedAt name commonPath files db).1
  filesKept : FilesKept db (importMerge I videoExt kind importedAt name commonPath files db).1
  onlyTime : OnlyTime name (importMerge I videoExt kind importedAt name commonPath files db).1
    (importMerge I videoExt kind again name commonPath files
      (importMerge I videoExt kind importedAt name commonPath files db).1).1
  described : Described name (importMerge I videoExt kind again name commonPath files
    (importMerge I videoExt kind importedAt name commonPath files db).1).1

end Kinds

/-! ### What an import does -/

section Imports

variable {db db' db'' : Db} {name importedAt commonPath : Text} {dirs : List Text}
  {emitted emitted' : List WorkFile} {r r' : Report}

theorem WorksKept.trans (h : WorksKept db db') (h' : WorksKept db' db'') : WorksKept db db'' := by
  intro w hw
  obtain ⟨w', hw', heq⟩ := h w hw
  obtain ⟨w'', hw'', heq'⟩ := h' w' hw'
  exact ⟨w'', hw'', heq'.trans heq⟩

theorem worksKept_of_subset (h : ∀ w ∈ db.works, w ∈ db'.works) : WorksKept db db' :=
  fun w hw => ⟨w, h w hw, rfl⟩

theorem worksKept_recompute (I : Inference) (db : Db) (dir : Text) :
    WorksKept db (recomputeWorkStats I db dir) := by
  intro w hw
  refine ⟨_, (Table.mem_update (Work.recomputed_dir I (filesIn db.files dir) dir)).mpr ⟨w, hw, rfl⟩, ?_⟩
  unfold Work.recomputed
  dsimp only
  split_ifs
  · rfl
  · rfl

theorem has_recompute (I : Inference) (db : Db) (dir dir' : Text) :
    (recomputeWorkStats I db dir).works.Has dir' ↔ db.works.Has dir' :=
  Table.has_update (Work.recomputed_dir I (filesIn db.files dir) dir)

/-- What an import in the mode `merge` does: it inserts the rows that are `emitted`, and writes the
row of the source with what it reports. -/
structure Merges (old : Db) (importedAt name commonPath : Text) (dirs : List Text)
    (emitted : List WorkFile) (db : Db) (r : Report) : Prop where
  sources : db.sources = old.sources.insertOrReplace
    ⟨name, importedAt, commonPath, r.added, r.fileCount, r.totalSize⟩
  playback : db.playback = old.playback
  files : db.files = old.files.insertAll emitted
  works : WorksKept old db
  has : ∀ dir ∈ dirs, db.works.Has dir
  allThere : (∀ dir ∈ dirs, old.works.Has dir) → r.added = 0
  emits : r.added = 0 → r.fileCount = 0 → emitted = []
  idle : emitted = [] → db.works = old.works ∧ r.added = 0 ∧ r.fileCount = 0 ∧ r.totalSize = 0

theorem filesKept_iff (h : Merges db importedAt name commonPath dirs emitted db' r) :
    FilesKept db db' ↔ Harmless db emitted := by
  rw [FilesKept, h.files]
  exact forall₂_congr fun f hf => Table.mem_insertAll_iff_of_mem hf

def worksOf (name : Text) (db : Db) : List Work := db.works.rows.filter (·.source = name)

def filesOf (name : Text) (db : Db) : List WorkFile :=
  db.files.rows.filter fun f => ∃ w ∈ worksOf name db, w.dir = f.dir

theorem mem_recountSource {s : Source} (hs : s ∈ db.sources) (hname : s.name = name) :
    s ∈ (recountSource name db).sources ↔
      s.workCount = (worksOf name db).length ∧ s.fileCount = countOf (filesOf name db) ∧
        s.totalSize = bytesOf (filesOf name db) := by
  unfold recountSource
  dsimp only
  rw [Table.mem_update]
  constructor
  · rintro ⟨s', hs', heq⟩
    have hkey : s'.name = s.name := by
      rw [← heq]
      split_ifs <;> rfl
    obtain rfl := Table.eq_of_key_eq hs' hs hkey
    rw [if_pos hname] at heq
    exact ⟨(congrArg Source.workCount heq).symm, (congrArg Source.fileCount heq).symm,
      (congrArg Source.totalSize heq).symm⟩
  · rintro ⟨hwork, hfile, hsize⟩
    refine ⟨s, hs, ?_⟩
    rw [if_pos hname]
    change { s with
      workCount := (worksOf name db).length
      fileCount := countOf (filesOf name db)
      totalSize := bytesOf (filesOf name db) } = s
    rw [← hwork, ← hfile, ← hsize]

theorem mem_recountSource_of_ne {s : Source} (hs : s ∈ db.sources) (hname : s.name ≠ name) :
    s ∈ (recountSource name db).sources := by
  unfold recountSource
  dsimp only
  rw [Table.mem_update]
  exact ⟨s, hs, if_neg hname⟩

theorem filesOf_eq_nil (h : worksOf name db = []) : filesOf name db = [] :=
  List.filter_eq_nil_iff.mpr fun f _ => by simp [h]

/-- Without works a source is described by zeros. -/
theorem described_of_not_source (h : ∀ w ∈ db.works, w.source ≠ name)
    (hzero : ∀ s ∈ db.sources, s.name = name →
      s.workCount = 0 ∧ s.fileCount = 0 ∧ s.totalSize = 0) : Described name db := by
  intro s hs
  by_cases hname : s.name = name
  · have hworks : worksOf name db = [] :=
      List.filter_eq_nil_iff.mpr fun w hw => by simpa using h w hw
    rw [mem_recountSource hs hname, filesOf_eq_nil hworks, hworks]
    exact hzero s hs hname
  · exact mem_recountSource_of_ne hs hname

/-- A source that is described to have no works has none, and no files. -/
theorem not_source_of_described (h : Described name db) {s : Source} (hs : s ∈ db.sources)
    (hname : s.name = name) (hcount : s.workCount = 0) :
    (∀ w ∈ db.works, w.source ≠ name) ∧ s.fileCount = 0 := by
  obtain ⟨hwork, hfile, -⟩ := (mem_recountSource hs hname).mp (h s hs)
  rw [hcount] at hwork
  have hworks : worksOf name db = [] := List.length_eq_zero_iff.mp (by omega)
  refine ⟨fun w hw => by simpa using List.filter_eq_nil_iff.mp hworks w hw, ?_⟩
  rw [hfile, filesOf_eq_nil hworks]
  rfl

/-- The second import writes the row of the source anew, and finds all works. -/
theorem right_iff_of_merges {again : Text}
    (h : Merges db importedAt name commonPath dirs emitted db' r)
    (h' : Merges db' again name commonPath dirs emitted' db'' r')
    (hemitted : emitted = [] → emitted' = []) :
    (WorksKept db db' ∧ FilesKept db db' ∧ OnlyTime name db' db'' ∧ Described name db'') ↔
      (∀ w ∈ db.works, w.source ≠ name) ∧ emitted = [] := by
  have hadded : r'.added = 0 := h'.allThere h.has
  have hrow' : ⟨name, again, commonPath, r'.added, r'.fileCount, r'.totalSize⟩ ∈ db''.sources := by
    rw [h'.sources]
    exact Table.mem_insertOrReplace.mpr (.inr rfl)
  have hrow : ⟨name, importedAt, commonPath, r.added, r.fileCount, r.totalSize⟩ ∈ db'.sources := by
    rw [h.sources]
    exact Table.mem_insertOrReplace.mpr (.inr rfl)
  constructor
  · rintro ⟨-, -, honly, hdescribed⟩
    obtain ⟨hnone, hfile⟩ := not_source_of_described hdescribed hrow' rfl hadded
    obtain ⟨t, ht⟩ := honly.source _ hrow rfl
    have heq := Table.eq_of_key_eq ht hrow' rfl
    refine ⟨fun w hw hname => ?_, h.emits ?_ ?_⟩
    · obtain ⟨w', hw', hkept⟩ := (h.works.trans h'.works) w hw
      exact hnone w' hw' ((congrArg Work.source hkept).trans hname)
    · exact (congrArg Source.workCount heq).trans hadded
    · exact (congrArg Source.fileCount heq).trans hfile
  · rintro ⟨hnone, hnil⟩
    obtain ⟨hworks, hcount, hfile, hsize⟩ := h.idle hnil
    obtain ⟨hworks', hcount', hfile', hsize'⟩ := h'.idle (hemitted hnil)
    have hfiles : db'.files = db.files := by
      rw [h.files, hnil]
      rfl
    have hfiles' : db''.files = db'.files := by
      rw [h'.files, hemitted hnil]
      rfl
    refine ⟨h.works, fun f hf => hfiles ▸ hf, ⟨fun w => by rw [hworks'], fun f => by rw [hfiles'],
      fun p => by rw [h'.playback], fun s hs => ?_, fun s hs hname => ⟨again, ?_⟩⟩,
      described_of_not_source (by rw [hworks', hworks]; exact hnone) fun s hs hname => ?_⟩
    · rw [h'.sources, Table.mem_insertOrReplace]
      refine ⟨fun hmem => ?_, fun hmem => .inl ⟨hmem, hs⟩⟩
      rcases hmem with ⟨hmem, -⟩ | rfl
      · exact hmem
      · exact absurd rfl hs
    · obtain rfl := Table.eq_of_key_eq hs hrow hname
      rw [hcount', hfile', hsize'] at hrow'
      rw [hcount, hfile, hsize]
      exact hrow'
    · obtain rfl := Table.eq_of_key_eq hs hrow' hname
      exact ⟨hcount', hfile', hsize'⟩

end Imports

/-! ### `import_payload` -/

section Payload

variable (I : Inference) (videoExt : List Text)

/-- The rows that a round inserts. -/
def written (old : Db) (g : Text × WorkInfo) : List WorkFile :=
  (g.2.files.filter fun f => ¬old.works.Has g.1 ∨ f.path ∉ pathsOf old g.1).map
    (payloadRow I videoExt g.1)

/-- The library and the counters after some rounds. -/
structure Rounds (old : Db) (done : List (Text × WorkInfo)) (st : Db × Tally) : Prop where
  sources : st.1.sources = old.sources
  playback : st.1.playback = old.playback
  files : st.1.files = old.files.insertAll (done.flatMap (written I videoExt old))
  works : WorksKept old st.1
  has : ∀ dir, st.1.works.Has dir ↔ old.works.Has dir ∨ dir ∈ done.map Prod.fst
  added : st.2.added = (done.filter fun g => ¬old.works.Has g.1).length
  fileCount : st.2.addedFiles + st.2.mergedFiles = (done.flatMap (written I videoExt old)).length
  totalSize : st.2.addedSize + st.2.mergedSize = bytesOf (done.flatMap (written I videoExt old))
  idle : done.flatMap (written I videoExt old) = [] → st.1.works = old.works

variable {I videoExt} {old : Db} {name : Text} {done works : List (Text × WorkInfo)}
  {g : Text × WorkInfo} {st : Db × Tally}

theorem rounds_start (old : Db) : Rounds I videoExt old [] (old, {}) where
  sources := rfl
  playback := rfl
  files := rfl
  works := worksKept_of_subset fun _ hw => hw
  has dir := by simp
  added := rfl
  fileCount := rfl
  totalSize := rfl
  idle _ := rfl

theorem insertAll_append_list {files : Table WorkFile.key} (rows rows' : List WorkFile) :
    files.insertAll (rows ++ rows') = (files.insertAll rows).insertAll rows' :=
  List.foldl_append

theorem bytesOf_append (rows rows' : List WorkFile) :
    bytesOf (rows ++ rows') = bytesOf rows + bytesOf rows' := by
  rw [bytesOf, List.map_append, List.sum_append]
  rfl

/-- The paths of a work are those of before, until its round. -/
theorem Rounds.pathsOf_eq (h : Rounds I videoExt old done st) (hnew : g.1 ∉ done.map Prod.fst) :
    pathsOf st.1 g.1 = pathsOf old g.1 := by
  rw [pathsOf, h.files, filesIn_insertAll_of_ne]
  · rfl
  · intro f hf heq
    obtain ⟨g', hg', hmem⟩ := List.mem_flatMap.mp hf
    obtain ⟨e, -, rfl⟩ := List.mem_map.mp hmem
    exact hnew (heq ▸ List.mem_map_of_mem hg')

/-- A round. -/
theorem rounds_importWork (h : Rounds I videoExt old done st) (hnew : g.1 ∉ done.map Prod.fst)
    (hcount : g.2.count = g.2.files.length)
    (hsize : g.2.totalSize = (g.2.files.map (·.size)).sum) (hne : g.2.files ≠ []) :
    Rounds I videoExt old (done ++ [g]) (importWork I videoExt .merge name st g) := by
  have hhas : st.1.works.Has g.1 ↔ old.works.Has g.1 := by
    rw [h.has]
    exact or_iff_left hnew
  have hpaths := h.pathsOf_eq hnew
  have hflat : (done ++ [g]).flatMap (written I videoExt old) =
      done.flatMap (written I videoExt old) ++ written I videoExt old g := by
    rw [List.flatMap_append, List.flatMap_singleton]
  have hdone : ∀ dir, dir ∈ (done ++ [g]).map Prod.fst ↔ dir ∈ done.map Prod.fst ∨ dir = g.1 := by
    intro dir
    rw [List.map_append, List.mem_append, List.map_singleton, List.mem_singleton]
  unfold importWork
  dsimp only
  by_cases hthere : old.works.Has g.1
  · have hwritten : written I videoExt old g =
        (g.2.files.filter fun f => f.path ∉ (filesIn st.1.files g.1).map (·.path)).map
          (payloadRow I videoExt g.1) := by
      have hpaths' : (filesIn st.1.files g.1).map (·.path) = pathsOf old g.1 := hpaths
      simp only [written, hthere, not_true_eq_false, false_or, hpaths']
    have hadded : (done ++ [g]).filter (fun g => ¬old.works.Has g.1) =
        done.filter fun g => ¬old.works.Has g.1 := by
      simp [List.filter_append, hthere]
    rw [if_pos (hhas.mpr hthere), if_pos rfl]
    have hkeep : ∀ dir, st.1.works.Has dir ↔ old.works.Has dir ∨ dir ∈ (done ++ [g]).map Prod.fst := by
      intro dir
      rw [h.has, hdone]
      constructor
      · exact fun hdir => hdir.imp_right .inl
      · rintro (hold | hdir | rfl)
        · exact .inl hold
        · exact .inr hdir
        · exact .inl hthere
    split_ifs with hnil
    · have hnone : written I videoExt old g = [] := by rw [hwritten, hnil, List.map_nil]
      rw [hnone, List.append_nil] at hflat
      exact ⟨h.sources, h.playback, hflat ▸ h.files, h.works, hkeep, by rw [hadded, h.added],
        hflat ▸ h.fileCount, hflat ▸ h.totalSize, fun hidle => h.idle (hflat ▸ hidle)⟩
    · set newFiles := g.2.files.filter fun f => f.path ∉ (filesIn st.1.files g.1).map (·.path)
      have hrecompute : WorksKept st.1 (recomputeWorkStats I
          { st.1 with files := st.1.files.insertAll (newFiles.map (payloadRow I videoExt g.1)) } g.1) :=
        worksKept_recompute I
          { st.1 with files := st.1.files.insertAll (newFiles.map (payloadRow I videoExt g.1)) } g.1
      refine ⟨h.sources, h.playback, ?_, h.works.trans hrecompute, fun dir => ?_, ?_, ?_, ?_,
        fun hidle => ?_⟩
      · rw [hflat, hwritten, insertAll_append_list, ← h.files]
        rfl
      · exact (has_recompute I _ g.1 dir).trans (hkeep dir)
      · rw [hadded, ← h.added]
      · have hlength := h.fileCount
        rw [hflat, hwritten, List.length_append, List.length_map]
        dsimp only
        push_cast
        omega
      · have hbytes := h.totalSize
        rw [hflat, hwritten, bytesOf_append, sum_payloadRow]
        dsimp only
        omega
      · rw [hflat, hwritten, List.append_eq_nil_iff, List.map_eq_nil_iff] at hidle
        exact absurd hidle.2 hnil
  · have hwritten : written I videoExt old g = g.2.files.map (payloadRow I videoExt g.1) := by
      simp [written, hthere]
    have hadded : (done ++ [g]).filter (fun g => ¬old.works.Has g.1) =
        (done.filter fun g => ¬old.works.Has g.1) ++ [g] := by
      simp [List.filter_append, hthere]
    have hfresh : ∀ w ∈ st.1.works, w.dir ≠ g.1 := fun w hw heq =>
      hthere (hhas.mp (Table.has_iff.mpr ⟨w, hw, heq⟩))
    rw [if_neg (mt hhas.mp hthere)]
    refine ⟨h.sources, h.playback, ?_, h.works.trans (worksKept_of_subset fun w hw => ?_),
      fun dir => ?_, ?_, ?_, ?_, fun hidle => ?_⟩
    · rw [hflat, hwritten, insertAll_append_list, ← h.files]
    · exact Table.mem_insertOrReplace.mpr (.inl ⟨hw, hfresh w hw⟩)
    · rw [hdone, ← or_assoc, ← h.has]
      exact Table.has_insertOrReplace
    · have hlength := h.added
      rw [hadded, List.length_append, List.length_singleton]
      dsimp only
      push_cast
      omega
    · have hlength := h.fileCount
      rw [hflat, hwritten, List.length_append, List.length_map]
      dsimp only
      push_cast
      omega
    · have hbytes := h.totalSize
      rw [hflat, hwritten, bytesOf_append, sum_payloadRow]
      dsimp only
      omega
    · rw [hflat, hwritten, List.append_eq_nil_iff, List.map_eq_nil_iff] at hidle
      exact absurd hidle.2 hne

theorem rounds_foldl (h : Rounds I videoExt old done st)
    (hnodup : ((done ++ works).map Prod.fst).Nodup)
    (hcount : ∀ g ∈ works, g.2.count = g.2.files.length)
    (hsize : ∀ g ∈ works, g.2.totalSize = (g.2.files.map (·.size)).sum)
    (hne : ∀ g ∈ works, g.2.files ≠ []) :
    Rounds I videoExt old (done ++ works) (works.foldl (importWork I videoExt .merge name) st) := by
  induction works generalizing done st with
  | nil =>
    rw [List.append_nil]
    exact h
  | cons g works ih =>
    have hsplit : done ++ g :: works = (done ++ [g]) ++ works := by simp
    have hnew : g.1 ∉ done.map Prod.fst := by
      intro hmem
      rw [List.map_append, List.map_cons] at hnodup
      exact List.disjoint_of_nodup_append hnodup hmem List.mem_cons_self
    rw [hsplit] at hnodup ⊢
    exact ih (rounds_importWork h hnew (hcount g List.mem_cons_self) (hsize g List.mem_cons_self)
      (hne g List.mem_cons_self)) hnodup (fun g' hg' => hcount g' (List.mem_cons_of_mem g hg'))
      (fun g' hg' => hsize g' (List.mem_cons_of_mem g hg'))
      fun g' hg' => hne g' (List.mem_cons_of_mem g hg')

/-- The works of a payload. -/
def payloadWorks (I : Inference) (videoExt : List Text) (commonPath : Text) (files : List Entry) :
    List (Text × WorkInfo) :=
  aggregateWorks I videoExt (Text.strip '/' commonPath) (joined commonPath files)

theorem mem_payloadWorks {commonPath : Text} {files : List Entry}
    (h : g ∈ payloadWorks I videoExt commonPath files) :
    g.1 ∈ (payloadFiles commonPath files).map Prod.fst ∧
      g.2.files = (Dict.valuesOf g.1 (payloadFiles commonPath files)).map Prod.fst ∧
      g.2.count = g.2.files.length ∧ g.2.totalSize = (g.2.files.map (·.size)).sum := by
  obtain ⟨hkey, hfiles, hcount, hsize, -⟩ := mem_aggregateWorks h
  exact ⟨hkey, hfiles, hcount, hsize⟩

theorem keys_payloadWorks (commonPath : Text) (files : List Entry) :
    (payloadWorks I videoExt commonPath files).map Prod.fst =
      (Dict.collect (payloadFiles commonPath files)).map Prod.fst :=
  keys_aggregateWorks

theorem mem_keys_payloadWorks {commonPath dir : Text} {files : List Entry} :
    dir ∈ (payloadWorks I videoExt commonPath files).map Prod.fst ↔
      dir ∈ (payloadFiles commonPath files).map Prod.fst := by
  rw [keys_payloadWorks]
  constructor
  · intro h
    obtain ⟨p, hp, rfl⟩ := List.mem_map.mp h
    exact (Dict.mem_collect.mp hp).1
  · intro h
    exact List.mem_map.mpr ⟨(dir, _), Dict.mem_collect.mpr ⟨h, rfl⟩, rfl⟩

theorem rounds_payloadWorks (name commonPath : Text) (files : List Entry) (db : Db) :
    Rounds I videoExt db (payloadWorks I videoExt commonPath files)
      ((payloadWorks I videoExt commonPath files).foldl (importWork I videoExt .merge name)
        (db, {})) := by
  have hnodup : (([] ++ payloadWorks I videoExt commonPath files).map Prod.fst).Nodup := by
    rw [List.nil_append, keys_payloadWorks]
    exact Dict.nodup_collect _
  have hne : ∀ g ∈ payloadWorks I videoExt commonPath files, g.2.files ≠ [] := by
    intro g hg
    obtain ⟨hkey, hfiles, -⟩ := mem_payloadWorks hg
    rw [hfiles, ne_eq, List.map_eq_nil_iff, Dict.valuesOf_eq_nil_iff]
    exact not_not.mpr hkey
  exact rounds_foldl (rounds_start db) hnodup (fun g hg => (mem_payloadWorks hg).2.2.1)
    (fun g hg => (mem_payloadWorks hg).2.2.2) hne

/-- The rows that `import_payload` inserts. -/
def payloadRows (I : Inference) (videoExt : List Text) (commonPath : Text) (files : List Entry)
    (db : Db) : List WorkFile :=
  (payloadWorks I videoExt commonPath files).flatMap (written I videoExt db)

theorem merges_importPayload (importedAt name commonPath : Text) (files : List Entry) (db : Db) :
    Merges db importedAt name (Text.strip '/' commonPath)
      ((payloadFiles commonPath files).map Prod.fst) (payloadRows I videoExt commonPath files db)
      (importPayload I videoExt .merge importedAt name commonPath files db).1
      (importPayload I videoExt .merge importedAt name commonPath files db).2 := by
  have h : Rounds I videoExt db _ _ := rounds_payloadWorks name commonPath files db
  refine ⟨congrArg (Table.insertOrReplace · _) h.sources, h.playback, h.files, h.works,
    fun dir hdir => (h.has dir).mpr (.inr (mem_keys_payloadWorks.mpr hdir)), fun hall => ?_,
    fun _ hcount => ?_, fun hnil => ⟨h.idle hnil, ?_, ?_, ?_⟩⟩
  · have hnone : (payloadWorks I videoExt commonPath files).filter
        (fun g => ¬db.works.Has g.1) = [] := by
      refine List.filter_eq_nil_iff.mpr fun g hg => ?_
      simpa using hall g.1 (mem_payloadWorks hg).1
    exact h.added.trans (by rw [hnone]; rfl)
  · have hlength := h.fileCount.symm.trans hcount
    exact List.length_eq_zero_iff.mp (by exact_mod_cast hlength)
  · have hnone : (payloadWorks I videoExt commonPath files).filter
        (fun g => ¬db.works.Has g.1) = [] := by
      refine List.filter_eq_nil_iff.mpr fun g hg => ?_
      by_contra hnew
      have hwritten := List.flatMap_eq_nil_iff.mp hnil g hg
      obtain ⟨hkey, hfiles, -⟩ := mem_payloadWorks hg
      rw [written, List.map_eq_nil_iff, List.filter_eq_nil_iff] at hwritten
      have hfalse : g.2.files = [] := List.eq_nil_iff_forall_not_mem.mpr fun e he =>
        hwritten e he (by simpa using Or.inl (by simpa using hnew))
      rw [hfiles, List.map_eq_nil_iff, Dict.valuesOf_eq_nil_iff] at hfalse
      exact hfalse hkey
    exact h.added.trans (by rw [hnone]; rfl)
  · exact h.fileCount.trans (by rw [payloadRows] at hnil; rw [hnil]; rfl)
  · exact h.totalSize.trans (by rw [payloadRows] at hnil; rw [hnil]; rfl)

theorem payloadRows_eq_nil_iff {commonPath : Text} {files : List Entry} {db : Db} :
    payloadRows I videoExt commonPath files db = [] ↔
      Known I videoExt .payload commonPath files db := by
  rw [payloadRows, List.flatMap_eq_nil_iff]
  have hwritten : ∀ g, written I videoExt db g = [] ↔
      ∀ e ∈ g.2.files, db.works.Has g.1 ∧ e.path ∈ pathsOf db g.1 := by
    intro g
    rw [written, List.map_eq_nil_iff, List.filter_eq_nil_iff]
    simp
  simp only [hwritten]
  constructor
  · rintro h ⟨dir, e, fileName⟩ he
    obtain ⟨g, hg, rfl⟩ := List.mem_map.mp (mem_keys_payloadWorks.mpr (List.mem_map_of_mem he))
    refine h g hg e ?_
    rw [(mem_payloadWorks hg).2.1]
    exact List.mem_map.mpr ⟨_, Dict.mem_valuesOf.mpr he, rfl⟩
  · intro h g hg e he
    rw [(mem_payloadWorks hg).2.1] at he
    obtain ⟨v, hv, rfl⟩ := List.mem_map.mp he
    exact h _ (Dict.mem_valuesOf.mp hv)

/-- Of one work the rows come in the order of the payload. -/
theorem payloadRows_filter (commonPath dir : Text) (files : List Entry) (db : Db) :
    (payloadRows I videoExt commonPath files db).filter (·.dir = dir) =
      (overwriting I videoExt .payload commonPath files db).filter (·.dir = dir) := by
  have hgroup : ∀ g, (written I videoExt db g).filter (fun f => f.dir = dir) =
      if g.1 = dir then written I videoExt db g else [] := by
    intro g
    split_ifs with heq
    · refine List.filter_eq_self.mpr fun f hf => decide_eq_true ?_
      obtain ⟨e, -, rfl⟩ := List.mem_map.mp hf
      exact heq
    · refine List.filter_eq_nil_iff.mpr fun f hf => ?_
      obtain ⟨e, -, rfl⟩ := List.mem_map.mp hf
      have hne : (payloadRow I videoExt g.1 e).dir ≠ dir := heq
      simpa using hne
  have hover : (overwriting I videoExt .payload commonPath files db).filter (·.dir = dir) =
      ((Dict.valuesOf dir (payloadFiles commonPath files)).filter fun v =>
        ¬db.works.Has dir ∨ v.1.path ∉ pathsOf db dir).map
          fun v => payloadRow I videoExt dir v.1 := by
    rw [overwriting, List.filter_map, Dict.valuesOf_eq_map_filter, List.filter_map, List.map_map,
      List.filter_filter, List.filter_filter]
    have hsame : ((payloadFiles commonPath files).filter fun e =>
          ((fun f : WorkFile => decide (f.dir = dir)) ∘ fun e : Text × Entry × Text =>
            payloadRow I videoExt e.1 e.2.1) e &&
              decide (¬db.works.Has e.1 ∨ e.2.1.path ∉ pathsOf db e.1)) =
        (payloadFiles commonPath files).filter fun e =>
          ((fun v : Entry × Text => decide (¬db.works.Has dir ∨ v.1.path ∉ pathsOf db dir)) ∘
            Prod.snd) e && decide (e.1 = dir) := by
      refine List.filter_congr fun e _ => ?_
      by_cases heq : e.1 = dir
      · simp [heq, dir_payloadRow]
      · simp [heq, dir_payloadRow]
    rw [hsame]
    refine List.map_congr_left fun e he => ?_
    have hdir : e.1 = dir := by
      have hcond := (List.mem_filter.mp he).2
      rw [Bool.and_eq_true] at hcond
      exact of_decide_eq_true hcond.2
    rw [hdir]
    rfl
  rw [payloadRows, List.filter_flatMap, hover]
  simp only [hgroup]
  by_cases hdir : dir ∈ (payloadFiles commonPath files).map Prod.fst
  · obtain ⟨g, hg, rfl⟩ := List.mem_map.mp ((mem_keys_payloadWorks (I := I)).mpr hdir)
    have hnodup : ((payloadWorks I videoExt commonPath files).map Prod.fst).Nodup := by
      rw [keys_payloadWorks]
      exact Dict.nodup_collect _
    rw [Dict.flatMap_of_key hnodup hg, written, (mem_payloadWorks hg).2.1, List.filter_map,
      List.map_map]
    rfl
  · rw [Dict.valuesOf_eq_nil_iff.mpr hdir]
    refine List.flatMap_eq_nil_iff.mpr fun g hg => if_neg fun heq => hdir ?_
    exact heq ▸ (mem_payloadWorks hg).1

end Payload

/-! ### `import_stream` -/

section Stream

variable {I : Inference} {videoExt : List Text} {batchSize : ℤ} {old : Db}
  {rows emitted : List WorkFile} {st : StreamState} {f : WorkFile} {root : Text}

/-- A work that takes no more files. -/
def Large (old : Db) (root : Text) : Prop := MERGE_PATH_SET_LIMIT < (filesIn old.files root).length

/-- What the loop knows of the works it has come to. -/
structure Looking (old : Db) (emitted : List WorkFile) (st : StreamState) : Prop where
  verdicts : ∀ root v, Dict.get? root st.verdicts = some v → v = decide (old.works.Has root)
  unseen : ∀ root, Dict.get? root st.verdicts = none →
    Dict.get? root st.existingPaths = none ∧ root ∉ st.largeRoots ∧ ∀ f ∈ emitted, f.dir ≠ root
  large : ∀ root, Dict.get? root st.verdicts = some true → (root ∈ st.largeRoots ↔ Large old root)
  paths : ∀ root, Dict.get? root st.verdicts = some true → ¬Large old root →
    ∃ ps, Dict.get? root st.existingPaths = some ps ∧
      ∀ p, p ∈ ps ↔ p ∈ pathsOf old root ∨ ∃ f ∈ emitted, f.dir = root ∧ f.path = p
  batch : ∀ f ∈ st.batch, f ∈ emitted

/-- The variables of the loop in the mode `merge`, with what is not emitted of the rows. -/
structure Reading (old : Db) (rows emitted : List WorkFile) (st : StreamState) : Prop where
  streaming : Streaming old rows emitted st
  looking : Looking old emitted st
  subset : ∀ f ∈ emitted, f ∈ rows
  fresh : ∀ f ∈ emitted, old.works.Has f.dir → f.path ∉ pathsOf old f.dir ∧ ¬Large old f.dir
  left : ∀ f ∈ rows, f ∈ emitted ∨ old.works.Has f.dir ∧ (Large old f.dir ∨
    f.path ∈ pathsOf old f.dir ∨ ∃ g ∈ emitted, g.dir = f.dir ∧ g.path = f.path)
  counts : ∀ g ∈ st.merged, 1 ≤ g.2.1
  emits : ∀ dir ∈ st.merged.map Prod.fst, ∃ f ∈ emitted, f.dir = dir
  added : 0 ≤ st.addedFiles
  idle : emitted = [] → st.addedFiles = 0 ∧ st.addedSize = 0

theorem reading_start (old : Db) : Reading old [] [] { files := old.files } where
  streaming := streaming_start old
  looking :=
    { verdicts := fun _ _ h => by cases h
      unseen := fun _ _ => ⟨rfl, List.not_mem_nil, List.forall_mem_nil _⟩
      large := fun _ h => by cases h
      paths := fun _ h => by cases h
      batch := List.forall_mem_nil _ }
  subset := List.forall_mem_nil _
  fresh := List.forall_mem_nil _
  left := List.forall_mem_nil _
  counts := List.forall_mem_nil _
  emits := List.forall_mem_nil _
  added := le_refl _
  idle _ := ⟨rfl, rfl⟩

/-- Until the loop comes to a work its files are those of before. -/
theorem filesIn_unseen (h : Looking old emitted st)
    (hfiles : st.files.insertAll st.batch = old.files.insertAll emitted)
    (hunseen : Dict.get? root st.verdicts = none) :
    filesIn st.files root = filesIn old.files root := by
  have hnone := (h.unseen root hunseen).2.2
  calc filesIn st.files root = filesIn (st.files.insertAll st.batch) root :=
        (filesIn_insertAll_of_ne fun f hf => hnone f (h.batch f hf)).symm
    _ = filesIn (old.files.insertAll emitted) root := by rw [hfiles]
    _ = filesIn old.files root := filesIn_insertAll_of_ne hnone

theorem looking_look (h : Looking old emitted st)
    (hfiles : st.files.insertAll st.batch = old.files.insertAll emitted) (root : Text) :
    (∃ verdicts paths large, st.look .merge old.works root =
      ({ st with verdicts, existingPaths := paths, largeRoots := large },
        decide (old.works.Has root)) ∧
      Dict.get? root verdicts = some (decide (old.works.Has root))) ∧
      Looking old emitted (st.look .merge old.works root).1 := by
  unfold StreamState.look
  cases hseen : Dict.get? root st.verdicts with
  | some verdict =>
    have hverdict := h.verdicts root verdict hseen
    exact ⟨⟨st.verdicts, st.existingPaths, st.largeRoots, by rw [hverdict], by rw [hseen, hverdict]⟩, h⟩
  | none =>
    obtain ⟨hpaths, hlarge, hemitted⟩ := h.unseen root hseen
    have hget : ∀ dir, Dict.get? dir (st.verdicts ++ [(root, decide (old.works.Has root))]) =
        if dir = root then some (decide (old.works.Has root)) else Dict.get? dir st.verdicts :=
      fun dir => Dict.get?_append_of_none hseen
    have hsame := filesIn_unseen h hfiles hseen
    have hverdicts : ∀ dir v, Dict.get? dir
        (st.verdicts ++ [(root, decide (old.works.Has root))]) = some v →
        v = decide (old.works.Has dir) := by
      intro dir v hv
      rw [hget] at hv
      split_ifs at hv with heq
      · rw [heq]
        exact (Option.some.inj hv).symm
      · exact h.verdicts dir v hv
    have hunseen : ∀ dir, Dict.get? dir
        (st.verdicts ++ [(root, decide (old.works.Has root))]) = none →
        dir ≠ root ∧ Dict.get? dir st.verdicts = none := by
      intro dir hv
      rw [hget] at hv
      split_ifs at hv with heq
      exact ⟨heq, hv⟩
    have hself : Dict.get? root (st.verdicts ++ [(root, decide (old.works.Has root))]) =
        some (decide (old.works.Has root)) := by rw [hget, if_pos rfl]
    have hother : ∀ dir, dir ≠ root → Dict.get? dir
        (st.verdicts ++ [(root, decide (old.works.Has root))]) = Dict.get? dir st.verdicts :=
      fun dir hne => by rw [hget, if_neg hne]
    dsimp only
    by_cases hhas : old.works.Has root
    · rw [if_pos ⟨rfl, decide_eq_true hhas⟩, hsame]
      by_cases hsmall : (filesIn old.files root).length ≤ MERGE_PATH_SET_LIMIT
      · have hnot : ¬Large old root := not_lt.mpr hsmall
        rw [if_pos hsmall]
        refine ⟨⟨_, _, _, rfl, hself⟩, hverdicts, fun dir hv => ?_, fun dir hv => ?_, fun dir hv hl => ?_,
          h.batch⟩
        · obtain ⟨hne, hv⟩ := hunseen dir hv
          refine ⟨?_, (h.unseen dir hv).2⟩
          rw [Dict.get?_append_of_none hpaths, if_neg hne]
          exact (h.unseen dir hv).1
        · rcases eq_or_ne dir root with rfl | hne
          · exact iff_of_false hlarge hnot
          · exact h.large dir ((hother dir hne).symm.trans hv)
        · dsimp only
          rw [Dict.get?_append_of_none hpaths]
          rcases eq_or_ne dir root with rfl | hne
          · rw [if_pos rfl]
            refine ⟨_, rfl, fun p => ⟨.inl, fun hp => hp.elim id ?_⟩⟩
            rintro ⟨f, hf, hdir, -⟩
            exact absurd hdir (hemitted f hf)
          · rw [if_neg hne]
            exact h.paths dir ((hother dir hne).symm.trans hv) hl
      · have hlarge' : Large old root := not_le.mp hsmall
        rw [if_neg hsmall]
        refine ⟨⟨_, _, _, rfl, hself⟩, hverdicts, fun dir hv => ?_, fun dir hv => ?_, fun dir hv hl => ?_,
          h.batch⟩
        · obtain ⟨hne, hv⟩ := hunseen dir hv
          obtain ⟨hget', hnot, hdir⟩ := h.unseen dir hv
          exact ⟨hget', by simp [hne, hnot], hdir⟩
        · rw [List.mem_cons]
          rcases eq_or_ne dir root with rfl | hne
          · exact iff_of_true (.inl rfl) hlarge'
          · rw [or_iff_right hne]
            exact h.large dir ((hother dir hne).symm.trans hv)
        · rcases eq_or_ne dir root with rfl | hne
          · exact absurd hlarge' hl
          · exact h.paths dir ((hother dir hne).symm.trans hv) hl
    · have htrue : ∀ dir, Dict.get? dir
          (st.verdicts ++ [(root, decide (old.works.Has root))]) = some true →
          Dict.get? dir st.verdicts = some true := by
        intro dir hv
        rcases eq_or_ne dir root with rfl | hne
        · exact absurd (hverdicts dir true hv) (by simp [hhas])
        · exact (hother dir hne).symm.trans hv
      rw [if_neg (by simp [hhas])]
      exact ⟨⟨_, _, _, rfl, hself⟩, hverdicts, fun dir hv => h.unseen dir (hunseen dir hv).2,
        fun dir hv => h.large dir (htrue dir hv), fun dir hv => h.paths dir (htrue dir hv), h.batch⟩

theorem Looking.flush (h : Looking old emitted st) : Looking old emitted st.flush :=
  ⟨h.verdicts, h.unseen, h.large, h.paths, List.forall_mem_nil _⟩

theorem Looking.flushAdded (h : Looking old emitted st) : Looking old emitted st.flushAdded :=
  ⟨h.verdicts, h.unseen, h.large, h.paths, List.forall_mem_nil _⟩

theorem Reading.flush (h : Reading old rows emitted st) : Reading old rows emitted st.flush :=
  ⟨h.streaming.flush, h.looking.flush, h.subset, h.fresh, h.left, h.counts, h.emits, h.added, h.idle⟩

theorem Reading.flushAdded (h : Reading old rows emitted st) :
    Reading old rows emitted st.flushAdded := by
  refine ⟨h.streaming.flushAdded, h.looking.flushAdded, h.subset, h.fresh, h.left, h.counts,
    h.emits, ?_, fun hnil => ?_⟩
  · have hadded := h.added
    change 0 ≤ st.addedFiles + st.batch.length
    omega
  · obtain ⟨hfiles, hsize⟩ := h.idle hnil
    have hbatch : st.batch = [] := List.eq_nil_iff_forall_not_mem.mpr fun f hf => by
      have hmem := h.looking.batch f hf
      rw [hnil] at hmem
      cases hmem
    change st.addedFiles + st.batch.length = 0 ∧ st.addedSize + bytesOf st.batch = 0
    rw [hbatch, hfiles, hsize]
    exact ⟨rfl, rfl⟩

/-- A row is left out: its work takes no more files, or has one with the path. -/
theorem Reading.skip (h : Reading old rows emitted st) (hold : old.works.Has f.dir)
    (hleft : Large old f.dir ∨ f.path ∈ pathsOf old f.dir ∨
      ∃ g ∈ emitted, g.dir = f.dir ∧ g.path = f.path) :
    Reading old (rows ++ [f]) emitted st := by
  refine ⟨h.streaming.skip hold, h.looking, fun x hx => List.mem_append_left _ (h.subset x hx),
    h.fresh, fun x hx => ?_, h.counts, h.emits, h.added, h.idle⟩
  rcases List.mem_append.mp hx with hx | hx
  · exact h.left x hx
  · rw [List.mem_singleton.mp hx]
    exact .inr ⟨hold, hleft⟩

/-- What is left out stays so when more is emitted. -/
theorem Reading.left_append (h : Reading old rows emitted st) (f : WorkFile) :
    ∀ x ∈ rows ++ [f], x ∈ emitted ++ [f] ∨ old.works.Has x.dir ∧ (Large old x.dir ∨
      x.path ∈ pathsOf old x.dir ∨ ∃ g ∈ emitted ++ [f], g.dir = x.dir ∧ g.path = x.path) := by
  intro x hx
  rcases List.mem_append.mp hx with hx | hx
  · rcases h.left x hx with hmem | ⟨hhas, hlarge | hpath | ⟨g, hg, hkey⟩⟩
    · exact .inl (List.mem_append_left _ hmem)
    · exact .inr ⟨hhas, .inl hlarge⟩
    · exact .inr ⟨hhas, .inr (.inl hpath)⟩
    · exact .inr ⟨hhas, .inr (.inr ⟨g, List.mem_append_left _ hg, hkey⟩)⟩
  · exact .inl (List.mem_append_right _ hx)

theorem Reading.subset_append (h : Reading old rows emitted st) (f : WorkFile) :
    ∀ x ∈ emitted ++ [f], x ∈ rows ++ [f] := by
  intro x hx
  rcases List.mem_append.mp hx with hx | hx
  · exact List.mem_append_left _ (h.subset x hx)
  · exact List.mem_append_right _ hx

/-- A row is emitted to a work that is there. -/
theorem Reading.merge (h : Reading old rows emitted st) (hold : old.works.Has f.dir)
    (hlarge : ¬Large old f.dir) (hpath : f.path ∉ pathsOf old f.dir)
    (hseen : Dict.get? f.dir st.verdicts = some true) :
    Reading old (rows ++ [f]) (emitted ++ [f])
      { st with
        existingPaths := Dict.modify f.dir [] (· ++ [f.path]) st.existingPaths
        merged := Dict.modify f.dir (0, 0) (fun g => (g.1 + 1, g.2 + f.size)) st.merged
        batch := st.batch ++ [f] } := by
  refine ⟨h.streaming.merge hold _ _, ⟨h.looking.verdicts, fun dir hv => ?_, h.looking.large,
    fun dir hv hl => ?_, fun x hx => ?_⟩, h.subset_append f, fun x hx hhas => ?_, h.left_append f,
    ?_, fun dir hdir => ?_, h.added, fun hnil => absurd hnil (by simp)⟩
  · have hne : dir ≠ f.dir := fun heq => by
      rw [heq, hseen] at hv
      cases hv
    obtain ⟨hpaths, hnot, hdirs⟩ := h.looking.unseen dir hv
    refine ⟨(Dict.get?_modify_of_ne hne).trans hpaths, hnot, fun x hx => ?_⟩
    rcases List.mem_append.mp hx with hx | hx
    · exact hdirs x hx
    · rw [List.mem_singleton.mp hx]
      exact hne.symm
  · obtain ⟨ps, hps, hmem⟩ := h.looking.paths dir hv hl
    rcases eq_or_ne dir f.dir with rfl | hne
    · refine ⟨ps ++ [f.path], ?_, fun p => ?_⟩
      · dsimp only
        rw [Dict.get?_modify_self, hps]
        rfl
      · rw [List.mem_append, List.mem_singleton, hmem, or_assoc]
        refine or_congr Iff.rfl ⟨?_, ?_⟩
        · rintro (⟨g, hg, hkey⟩ | rfl)
          · exact ⟨g, List.mem_append_left _ hg, hkey⟩
          · exact ⟨f, List.mem_append_right _ (List.mem_singleton_self f), rfl, rfl⟩
        · rintro ⟨g, hg, hdir, rfl⟩
          rcases List.mem_append.mp hg with hg | hg
          · exact .inl ⟨g, hg, hdir, rfl⟩
          · exact .inr (by rw [List.mem_singleton.mp hg])
    · refine ⟨ps, (Dict.get?_modify_of_ne hne).trans hps, fun p => ?_⟩
      rw [hmem]
      refine or_congr Iff.rfl ⟨?_, ?_⟩
      · rintro ⟨g, hg, hkey⟩
        exact ⟨g, List.mem_append_left _ hg, hkey⟩
      · rintro ⟨g, hg, hdir, hkey⟩
        rcases List.mem_append.mp hg with hg | hg
        · exact ⟨g, hg, hdir, hkey⟩
        · rw [List.mem_singleton.mp hg] at hdir
          exact absurd hdir.symm hne
  · rcases List.mem_append.mp hx with hx | hx
    · exact List.mem_append_left _ (h.looking.batch x hx)
    · exact List.mem_append_right _ hx
  · rcases List.mem_append.mp hx with hx | hx
    · exact h.fresh x hx hhas
    · rw [List.mem_singleton.mp hx]
      exact ⟨hpath, hlarge⟩
  · refine Dict.forall_mem_modify (P := fun g : ℤ × ℤ => 1 ≤ g.1) (le_refl (1 : ℤ))
      (fun g hg => ?_) h.counts
    dsimp only
    omega
  · rcases Dict.mem_keys_modify.mp hdir with hdir | rfl
    · obtain ⟨g, hg, hkey⟩ := h.emits dir hdir
      exact ⟨g, List.mem_append_left _ hg, hkey⟩
    · exact ⟨f, List.mem_append_right _ (List.mem_singleton_self f), rfl⟩

/-- A row is emitted to a new work. -/
theorem Reading.add (h : Reading old rows emitted st) (hnew : ¬old.works.Has f.dir)
    (hseen : Dict.get? f.dir st.verdicts = some false) :
    Reading old (rows ++ [f]) (emitted ++ [f])
      { st with
        batch := st.batch ++ [f]
        stats := Dict.modify f.dir {}
          (fun g =>
            { count := g.count + 1
              videoCount := g.videoCount + if f.isVideo then 1 else 0
              totalSize := g.totalSize + f.size
              names := if f.isVideo then g.names ++ [f.fileName] else g.names })
          st.stats } := by
  refine ⟨h.streaming.add hnew, ⟨h.looking.verdicts, fun dir hv => ?_, h.looking.large,
    fun dir hv hl => ?_, fun x hx => ?_⟩, h.subset_append f, fun x hx hhas => ?_, h.left_append f,
    h.counts, fun dir hdir => ?_, h.added, fun hnil => absurd hnil (by simp)⟩
  · have hne : dir ≠ f.dir := fun heq => by
      rw [heq, hseen] at hv
      cases hv
    obtain ⟨hpaths, hnot, hdirs⟩ := h.looking.unseen dir hv
    refine ⟨hpaths, hnot, fun x hx => ?_⟩
    rcases List.mem_append.mp hx with hx | hx
    · exact hdirs x hx
    · rw [List.mem_singleton.mp hx]
      exact hne.symm
  · have hne : f.dir ≠ dir := fun heq => by
      rw [← heq, hseen] at hv
      cases hv
    obtain ⟨ps, hps, hmem⟩ := h.looking.paths dir hv hl
    refine ⟨ps, hps, fun p => ?_⟩
    rw [hmem]
    refine or_congr Iff.rfl ⟨?_, ?_⟩
    · rintro ⟨g, hg, hkey⟩
      exact ⟨g, List.mem_append_left _ hg, hkey⟩
    · rintro ⟨g, hg, hdir, hkey⟩
      rcases List.mem_append.mp hg with hg | hg
      · exact ⟨g, hg, hdir, hkey⟩
      · rw [List.mem_singleton.mp hg] at hdir
        exact absurd hdir hne
  · rcases List.mem_append.mp hx with hx | hx
    · exact List.mem_append_left _ (h.looking.batch x hx)
    · exact List.mem_append_right _ hx
  · rcases List.mem_append.mp hx with hx | hx
    · exact h.fresh x hx hhas
    · rw [List.mem_singleton.mp hx] at hhas
      exact absurd hhas hnew
  · obtain ⟨g, hg, hkey⟩ := h.emits dir hdir
    exact ⟨g, List.mem_append_left _ hg, hkey⟩

/-- A round. -/
theorem reading_row (h : Reading old rows emitted st) (f : WorkFile) :
    ∃ emitted', Reading old (rows ++ [f]) emitted' (st.row .merge old.works batchSize f) := by
  obtain ⟨⟨verdicts, paths, large, hlook, hseen⟩, hlooking⟩ :=
    looking_look h.looking h.streaming.files f.dir
  rw [hlook] at hlooking
  have hreading : Reading old rows emitted
      { st with verdicts, existingPaths := paths, largeRoots := large } :=
    ⟨⟨h.streaming.files, h.streaming.newRows, h.streaming.stats, h.streaming.nodup,
      h.streaming.there, h.streaming.merged⟩, hlooking, h.subset, h.fresh, h.left, h.counts,
      h.emits, h.added, h.idle⟩
  unfold StreamState.row
  dsimp only
  rw [hlook]
  dsimp only
  by_cases hold : old.works.Has f.dir
  · rw [decide_eq_true hold] at hseen
    rw [if_pos (decide_eq_true hold)]
    by_cases hlarge : Large old f.dir
    · rw [if_pos (.inr ((hlooking.large f.dir hseen).mpr hlarge))]
      exact ⟨emitted, hreading.skip hold (.inl hlarge)⟩
    · obtain ⟨ps, hps, hmem⟩ := hlooking.paths f.dir hseen hlarge
      have hps' : Dict.get? f.dir paths = some ps := hps
      have hnot : f.dir ∉ large := mt (hlooking.large f.dir hseen).mp hlarge
      rw [if_neg (by simp [hnot]), hps', Option.getD_some]
      by_cases hpath : f.path ∈ ps
      · rw [if_pos hpath]
        refine ⟨emitted, hreading.skip hold (.inr ?_)⟩
        exact (hmem f.path).mp hpath
      · rw [if_neg hpath]
        have hmerge := hreading.merge hold hlarge (fun hp => hpath ((hmem f.path).mpr (.inl hp))) hseen
        split_ifs
        · exact ⟨_, hmerge.flush⟩
        · exact ⟨_, hmerge⟩
  · rw [decide_eq_false hold] at hseen
    rw [if_neg (by simpa using hold)]
    by_cases hfull : batchSize ≤ (st.batch ++ [f]).length
    · rw [if_pos hfull]
      exact ⟨_, (hreading.add hold hseen).flushAdded⟩
    · rw [if_neg hfull]
      exact ⟨_, hreading.add hold hseen⟩

/-- All rounds. -/
theorem reading_foldl (batchSize : ℤ) (old : Db) (rows : List WorkFile) :
    ∃ emitted, Reading old rows emitted
      (rows.foldl (StreamState.row .merge old.works batchSize) { files := old.files }) := by
  induction rows using List.reverseRecOn with
  | nil => exact ⟨[], reading_start old⟩
  | append_singleton rows f ih =>
    obtain ⟨emitted, h⟩ := ih
    rw [List.foldl_append]
    exact reading_row h f

theorem foldl_recompute (I : Inference) (dirs : List Text) (db : Db) :
    (dirs.foldl (recomputeWorkStats I) db).sources = db.sources ∧
      (dirs.foldl (recomputeWorkStats I) db).playback = db.playback ∧
      (dirs.foldl (recomputeWorkStats I) db).files = db.files ∧
      WorksKept db (dirs.foldl (recomputeWorkStats I) db) ∧
      ∀ dir, (dirs.foldl (recomputeWorkStats I) db).works.Has dir ↔ db.works.Has dir := by
  induction dirs generalizing db with
  | nil => exact ⟨rfl, rfl, rfl, worksKept_of_subset fun _ hw => hw, fun _ => Iff.rfl⟩
  | cons dir dirs ih =>
    obtain ⟨hsources, hplayback, hfiles, hworks, hhas⟩ := ih (recomputeWorkStats I db dir)
    exact ⟨hsources, hplayback, hfiles, (worksKept_recompute I db dir).trans hworks,
      fun dir' => (hhas dir').trans (has_recompute I db dir dir')⟩

/-- Nothing is emitted where all is known. -/
theorem Reading.emitted_eq_nil_iff (h : Reading old rows emitted st) :
    emitted = [] ↔ ∀ f ∈ rows, old.works.Has f.dir ∧ (Large old f.dir ∨ f.path ∈ pathsOf old f.dir) := by
  constructor
  · rintro rfl f hf
    rcases h.left f hf with hmem | ⟨hhas, hlarge | hpath | ⟨g, hg, -⟩⟩
    · cases hmem
    · exact ⟨hhas, .inl hlarge⟩
    · exact ⟨hhas, .inr hpath⟩
    · cases hg
  · intro hknown
    refine List.eq_nil_iff_forall_not_mem.mpr fun f hf => ?_
    obtain ⟨hhas, hleft⟩ := hknown f (h.subset f hf)
    obtain ⟨hpath, hlarge⟩ := h.fresh f hf hhas
    exact hleft.elim hlarge hpath

/-- Only the rows of new works can come over rows that are there. -/
theorem Reading.filter_key (h : Reading old rows emitted st) {f : WorkFile} (hf : f ∈ old.files) :
    emitted.filter (·.key = f.key) =
      (rows.filter fun x => ¬old.works.Has x.dir).filter (·.key = f.key) := by
  have hdir : ∀ x : WorkFile, x.key = f.key → x.dir = f.dir ∧ x.path = f.path :=
    fun x hx => Prod.mk.inj hx
  by_cases hhas : old.works.Has f.dir
  · have hleft : emitted.filter (fun x => x.key = f.key) = [] := by
      refine List.filter_eq_nil_iff.mpr fun x hx => ?_
      rw [decide_eq_true_eq]
      intro hkey
      obtain ⟨hxdir, hxpath⟩ := hdir x hkey
      refine (h.fresh x hx (hxdir ▸ hhas)).1 ?_
      rw [hxdir, hxpath]
      exact List.mem_map.mpr ⟨f, mem_filesIn.mpr ⟨hf, rfl⟩, rfl⟩
    rw [hleft, eq_comm, List.filter_eq_nil_iff]
    intro x hx
    rw [decide_eq_true_eq]
    intro hkey
    have hnot := of_decide_eq_true (List.mem_filter.mp hx).2
    exact hnot ((hdir x hkey).1 ▸ hhas)
  · have hrows := h.streaming.newRows f.dir hhas
    have hrestrict : ∀ l : List WorkFile,
        l.filter (fun x => x.key = f.key) = (rowsOf l f.dir).filter fun x => x.key = f.key := by
      intro l
      rw [rowsOf, List.filter_filter]
      refine List.filter_congr fun x _ => ?_
      by_cases hkey : x.key = f.key
      · simp [hkey, (hdir x hkey).1]
      · simp [hkey]
    have hnew : rowsOf (rows.filter fun x => ¬old.works.Has x.dir) f.dir = rowsOf rows f.dir := by
      rw [rowsOf, rowsOf, List.filter_filter]
      refine List.filter_congr fun x _ => ?_
      by_cases heq : x.dir = f.dir
      · simp [heq, hhas]
      · simp [heq]
    rw [hrestrict emitted, hrows, hrestrict (rows.filter _), hnew]

theorem sum_counts {merged : List (Text × ℤ × ℤ)} (h : ∀ g ∈ merged, 1 ≤ g.2.1) :
    (merged.length : ℤ) ≤ (merged.map (·.2.1)).sum := by
  induction merged with
  | nil => exact le_refl _
  | cons g merged ih =>
    obtain ⟨hg, hmerged⟩ := List.forall_mem_cons.mp h
    have hle := ih hmerged
    rw [List.map_cons, List.sum_cons, List.length_cons]
    push_cast
    omega

/-- The end of the loop: what is written of it. -/
theorem Reading.merges (h : Reading old rows emitted st) (hbatch : st.batch = [])
    (importedAt name commonPath : Text) {report : Report} (hadded : report.added = st.stats.length)
    (hcount : report.fileCount = st.addedFiles + (st.merged.map (·.2.1)).sum)
    (hsize : report.totalSize = st.addedSize + (st.merged.map (·.2.2)).sum) :
    Merges old importedAt name commonPath (rows.map (·.dir)) emitted
      (finishImport ((st.merged.map Prod.fst).foldl (recomputeWorkStats I)
        { old with files := st.files, works := old.works.insertAll (st.stats.map (streamWork I name)) })
        importedAt name commonPath report) report := by
  obtain ⟨hsources, hplayback, hfiles, hworks, hhas⟩ := foldl_recompute I (st.merged.map Prod.fst)
    { old with files := st.files, works := old.works.insertAll (st.stats.map (streamWork I name)) }
  have htable : st.files = old.files.insertAll emitted := by
    rw [← h.streaming.files, hbatch]
    rfl
  have hold : WorksKept old
      { old with files := st.files, works := old.works.insertAll (st.stats.map (streamWork I name)) } :=
    worksKept_of_subset fun w hw => h.streaming.mem_works.mpr (.inl hw)
  have hnonneg : (0 : ℤ) ≤ (st.merged.map (·.2.1)).sum :=
    (Int.natCast_nonneg _).trans (sum_counts h.counts)
  have hstats : (∀ dir ∈ rows.map (·.dir), old.works.Has dir) → st.stats = [] := by
    intro hall
    refine List.eq_nil_iff_forall_not_mem.mpr fun g hg => ?_
    obtain ⟨hnew, hdir, -⟩ := h.streaming.mem_stats.mp hg
    exact hnew (hall g.1 hdir)
  refine ⟨congrArg (Table.insertOrReplace · _) hsources, hplayback, hfiles.trans htable,
    hold.trans hworks, fun dir hdir => (hhas dir).mpr ?_, fun hall => ?_, fun hzero hcount' => ?_,
    fun hnil => ?_⟩
  · by_cases hdir' : old.works.Has dir
    · exact Table.has_insertAll.mpr (.inl hdir')
    · refine Table.has_insertAll.mpr (.inr ?_)
      rw [keys_streamWork]
      exact List.mem_map_of_mem (f := Prod.fst)
        ((h.streaming.mem_stats (g := (dir, statOf (rowsOf rows dir)))).mpr ⟨hdir', hdir, rfl⟩)
  · rw [hadded, hstats hall]
    rfl
  · have hnone : st.stats = [] := by
      rw [hadded] at hzero
      exact List.length_eq_zero_iff.mp (by exact_mod_cast hzero)
    have hmerged : st.merged = [] := by
      have hle := sum_counts h.counts
      have hnn := h.added
      rw [hcount] at hcount'
      exact List.length_eq_zero_iff.mp (by omega)
    refine List.eq_nil_iff_forall_not_mem.mpr fun f hf => ?_
    by_cases hdir : old.works.Has f.dir
    · have hthere := h.streaming.there f hf hdir
      rw [hmerged] at hthere
      cases hthere
    · have hmem := (h.streaming.mem_stats (g := (f.dir, statOf (rowsOf rows f.dir)))).mpr
        ⟨hdir, List.mem_map_of_mem (h.subset f hf), rfl⟩
      rw [hnone] at hmem
      cases hmem
  · have hmerged : st.merged = [] := by
      rw [← List.map_eq_nil_iff (f := Prod.fst)]
      refine List.eq_nil_iff_forall_not_mem.mpr fun dir hdir => ?_
      obtain ⟨f, hf, -⟩ := h.emits dir hdir
      rw [hnil] at hf
      cases hf
    have hnone : st.stats = [] := hstats fun dir hdir => by
      obtain ⟨f, hf, rfl⟩ := List.mem_map.mp hdir
      exact (h.emitted_eq_nil_iff.mp hnil f hf).1
    obtain ⟨hfile, hbytes⟩ := h.idle hnil
    refine ⟨?_, ?_, ?_, ?_⟩
    · rw [hmerged, hnone]
      rfl
    · rw [hadded, hnone]
      rfl
    · rw [hcount, hfile, hmerged]
      rfl
    · rw [hsize, hbytes, hmerged]
      rfl

theorem merges_importStream (batchSize : ℤ) (importedAt name commonPath : Text) (files : List Entry)
    (db : Db) : ∃ emitted,
      Merges db importedAt name commonPath
        ((files.filterMap (streamRow I videoExt commonPath)).map (·.dir)) emitted
        (importStream I videoExt .merge batchSize importedAt name commonPath files db).1
        (importStream I videoExt .merge batchSize importedAt name commonPath files db).2 ∧
      (emitted = [] ↔ Known I videoExt (.stream batchSize) commonPath files db) ∧
      (Harmless db emitted ↔
        Harmless db (overwriting I videoExt (.stream batchSize) commonPath files db)) := by
  obtain ⟨emitted, h⟩ := reading_foldl batchSize db (files.filterMap (streamRow I videoExt commonPath))
  set st := (files.filterMap (streamRow I videoExt commonPath)).foldl
    (StreamState.row .merge db.works batchSize) { files := db.files } with hst
  -- the last batch is written
  have hlast : Reading db (files.filterMap (streamRow I videoExt commonPath)) emitted
      (if st.batch = [] then st else st.flushAdded) ∧
      (if st.batch = [] then st else st.flushAdded).batch = [] := by
    split_ifs with hbatch
    · exact ⟨h, hbatch⟩
    · exact ⟨h.flushAdded, rfl⟩
  refine ⟨emitted, ?_, h.emitted_eq_nil_iff, ?_⟩
  · exact hlast.1.merges hlast.2 importedAt name commonPath rfl rfl rfl
  · refine forall₂_congr fun f hf => ?_
    rw [h.filter_key hf]
    rfl

end Stream

/-! ### Both imports -/

section Both

variable (I : Inference) (videoExt : List Text)

/-- The works of an import. -/
def dirsOf (kind : Kind) (commonPath : Text) (files : List Entry) : List Text :=
  match kind with
  | .payload => (payloadFiles commonPath files).map Prod.fst
  | .stream _ => (files.filterMap (streamRow I videoExt commonPath)).map (·.dir)

/-- The common path of the source. -/
def storedPath (kind : Kind) (commonPath : Text) : Text :=
  match kind with
  | .payload => Text.strip '/' commonPath
  | .stream _ => commonPath

theorem exists_merges (kind : Kind) (importedAt name commonPath : Text) (files : List Entry)
    (db : Db) : ∃ emitted,
      Merges db importedAt name (storedPath kind commonPath) (dirsOf I videoExt kind commonPath files)
        emitted (importMerge I videoExt kind importedAt name commonPath files db).1
        (importMerge I videoExt kind importedAt name commonPath files db).2 ∧
      (emitted = [] ↔ Known I videoExt kind commonPath files db) ∧
      (Harmless db emitted ↔ Harmless db (overwriting I videoExt kind commonPath files db)) := by
  cases kind with
  | payload =>
    refine ⟨payloadRows I videoExt commonPath files db,
      merges_importPayload importedAt name commonPath files db, payloadRows_eq_nil_iff, ?_⟩
    have hrestrict : ∀ (f : WorkFile) (l : List WorkFile), l.filter (fun x => x.key = f.key) =
        (l.filter fun x => x.dir = f.dir).filter fun x => x.key = f.key := by
      intro f l
      rw [List.filter_filter]
      refine List.filter_congr fun x _ => ?_
      by_cases hkey : x.key = f.key
      · have hdir : x.dir = f.dir := (Prod.mk.inj hkey).1
        simp [hkey, hdir]
      · simp [hkey]
    refine forall₂_congr fun f _ => ?_
    rw [hrestrict f, payloadRows_filter, ← hrestrict f]
  | stream batchSize => exact merges_importStream batchSize importedAt name commonPath files db

theorem known_congr {kind : Kind} {commonPath : Text} {files : List Entry} {db db' : Db}
    (hworks : db'.works = db.works) (hfiles : db'.files = db.files) :
    Known I videoExt kind commonPath files db' ↔ Known I videoExt kind commonPath files db := by
  cases kind with
  | payload => rw [Known, Known, hworks]; unfold pathsOf; rw [hfiles]
  | stream batchSize => rw [Known, Known, hworks]; unfold pathsOf; rw [hfiles]

/-- An import in the mode `merge` keeps the works that are there, and the files where it writes no
other row over them; it does all that is asked of it just when the payload brings nothing and the
library has no works of the source. -/
theorem merge_import_right_iff (kind : Kind) (importedAt again name commonPath : Text)
    (files : List Entry) (db : Db) :
    WorksKept db (importMerge I videoExt kind importedAt name commonPath files db).1 ∧
      (FilesKept db (importMerge I videoExt kind importedAt name commonPath files db).1 ↔
        Harmless db (overwriting I videoExt kind commonPath files db)) ∧
      (MergeRight I videoExt kind importedAt again name commonPath files db ↔
        (∀ w ∈ db.works, w.source ≠ name) ∧ Known I videoExt kind commonPath files db) := by
  obtain ⟨emitted, h, hknown, hharmless⟩ :=
    exists_merges I videoExt kind importedAt name commonPath files db
  obtain ⟨emitted', h', hknown', -⟩ := exists_merges I videoExt kind again name commonPath files
    (importMerge I videoExt kind importedAt name commonPath files db).1
  have hagain : emitted = [] → emitted' = [] := by
    intro hnil
    have hfiles : (importMerge I videoExt kind importedAt name commonPath files db).1.files =
        db.files := by
      rw [h.files, hnil]
      rfl
    exact hknown'.mpr ((known_congr I videoExt (h.idle hnil).1 hfiles).mpr (hknown.mp hnil))
  refine ⟨h.works, (filesKept_iff h).trans hharmless, ?_⟩
  rw [← hknown, ← right_iff_of_merges h h' hagain]
  exact ⟨fun hright => ⟨hright.worksKept, hright.filesKept, hright.onlyTime, hright.described⟩,
    fun ⟨hworks, hfiles, honly, hdescribed⟩ => ⟨hworks, hfiles, honly, hdescribed⟩⟩

end Both

/-- A file without a path is stored under its name. -/
def pathless (etag : String) : Entry where
  path := []
  fileName := "a.mkv".toList
  etag := etag.toList
  size := 7
  s3KeyFlag := []

/-- The second import of a payload leaves its source with no works, and a file without a path comes
over the one that is there. -/
theorem reimport_loses :
    ¬(∀ files, MergeRight plain [".mkv".toList] .payload [] [] "s".toList "m".toList files ∅) ∧
      ¬∀ files db, FilesKept db
        (importMerge plain [".mkv".toList] .payload [] "s".toList "m".toList files db).1 := by
  constructor
  · intro h
    have hright := (h [someEntry]).described
    have hwrong : ∃ s ∈ (importMerge plain [".mkv".toList] .payload [] "s".toList "m".toList
          [someEntry] (importMerge plain [".mkv".toList] .payload [] "s".toList "m".toList
            [someEntry] ∅).1).1.sources.rows,
        s ∉ (recountSource "s".toList (importMerge plain [".mkv".toList] .payload [] "s".toList
          "m".toList [someEntry] (importMerge plain [".mkv".toList] .payload [] "s".toList
            "m".toList [someEntry] ∅).1).1).sources.rows := by
      decide +kernel
    obtain ⟨s, hs, hnot⟩ := hwrong
    exact hnot (hright s hs)
  · intro h
    have hwrong : ∃ f ∈ (importMerge plain [".mkv".toList] .payload [] "s".toList "m".toList
          [pathless "1"] ∅).1.files.rows,
        f ∉ (importMerge plain [".mkv".toList] .payload [] "s".toList "m".toList [pathless "2"]
          (importMerge plain [".mkv".toList] .payload [] "s".toList "m".toList
            [pathless "1"] ∅).1).1.files.rows := by
      decide +kernel
    obtain ⟨f, hf, hnot⟩ := hwrong
    exact hnot (h [pathless "2"] _ f hf)

end AllInOneBackup.Cloud123.Library
