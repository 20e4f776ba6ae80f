import AllInOneBackup.Cloud123.Library.Tables
import AllInOneBackup.Data.Dict

/-! The imports into the movie library: `import_payload`, which groups all files into works first,
and `import_stream`, which reads them one by one and writes them in batches. -/

namespace AllInOneBackup.Cloud123.Library

open Data Data.Keyed

/-- A normalised file of a payload. -/
structure Entry where
  path : Text
  fileName : Text
  etag : Text
  size : ℤ
  s3KeyFlag : Text
  deriving DecidableEq

inductive Mode
  | merge
  | skip
  deriving DecidableEq

/-- What an import reports. -/
structure Report where
  added : ℤ
  skipped : ℤ
  mergedWorks : ℤ
  mergedFiles : ℤ
  fileCount : ℤ
  totalSize : ℤ
  deriving DecidableEq

/-- `os.path.splitext(name)[1]`; leading dots begin no extension. -/
def splitext (name : Text) : Text :=
  match Text.rsplitOnce '.' name with
  | some (stem, ext) => if stem.any (· ≠ '.') then '.' :: ext else []
  | none => []

/-- A relative path is joined to the common path. -/
def joinCommon (commonPath path : Text) : Text :=
  if commonPath ≠ [] ∧ path ≠ [] ∧ ¬commonPath ++ "/".toList <+: path then
    commonPath ++ "/".toList ++ Text.lstrip '/' path
  else path

/-! ### Enrichment -/

/-- `_snapshot_enrichment`. -/
def snapshotEnrichment (I : Inference) (db : Db) (source : Text) :
    List (Text × Details × Option ℤ) :=
  (db.works.rows.filter fun w => w.source = source ∧ w.tmdbStatus = "ok".toList).map fun w =>
    (w.dir, { w.details with genres := I.genres w.details.genres }, w.heading.year)

/-- A work with other details; a year that TMDB does not give leaves the old one. -/
def Work.enriched (dir : Text) (details : Details) (year : Option ℤ) (w : Work) : Work :=
  if w.dir = dir then
    { w with
      heading := { w.heading with
        year := if year = none ∨ year = some 0 then w.heading.year else year }
      details
      tmdbStatus := "ok".toList
      enrichAttempts := 0 }
  else w

theorem Work.enriched_dir (dir : Text) (details : Details) (year : Option ℤ) (w : Work) :
    (w.enriched dir details year).dir = w.dir := by
  unfold Work.enriched
  by_cases h : w.dir = dir
  · rw [if_pos h]
  · rw [if_neg h]

/-- `apply_enrichment`. -/
def applyEnrichment (works : Table Work.dir) (dir : Text) (details : Details) (year : Option ℤ) :
    Table Work.dir :=
  works.update (·.enriched dir details year) (Work.enriched_dir dir details year)

def restoreEnrichment (snapshot : List (Text × Details × Option ℤ)) (P : Text → Bool)
    (works : Table Work.dir) : Table Work.dir :=
  snapshot.foldl (fun works e => if P e.1 then applyEnrichment works e.1 e.2.1 e.2.2 else works)
    works

/-- The works of a source are deleted, with their files. -/
def clearWorks (db : Db) (source : Text) : Db :=
  { db with
    files := db.files.delete fun f => ∃ w ∈ db.works.rows, w.dir = f.dir ∧ w.source = source
    works := db.works.delete fun w => w.source = source }

section Payload

variable (I : Inference) (videoExt : List Text)

/-! ### `import_payload` -/

structure WorkInfo where
  files : List Entry
  count : ℤ
  videoCount : ℤ
  totalSize : ℤ
  resolution : Text
  edition : Text

/-- `common_path.rsplit("/", 1)[-1]`. -/
def fallbackRoot (commonPath : Text) : Text := Text.lastPart '/' commonPath

/-- The works of a payload, each with its files; a file without a directory is left out. -/
def aggregateWorks (commonPath : Text) (files : List Entry) : List (Text × WorkInfo) :=
  let groups := Dict.collect <| files.filterMap fun f =>
    (splitWork f.path (fallbackRoot commonPath)).map fun split => (split.1, f, split.2)
  groups.map fun g =>
    let technical := I.technical (g.2.map fun f => Text.lastPart '/' f.1.path)
    (g.1,
      { files := g.2.map (·.1)
        count := g.2.length
        videoCount := g.2.countP fun f => I.lower (splitext f.2) ∈ videoExt
        totalSize := (g.2.map (·.1.size)).sum
        resolution := technical.1
        edition := technical.2 })

/-- The row of a file; its path decides whether it is a video. -/
def payloadRow (dir : Text) (f : Entry) : WorkFile :=
  let fname := if f.fileName = [] then Text.lastPart '/' f.path else f.fileName
  { dir
    path := if f.path = [] then fname else f.path
    fileName := fname
    etag := f.etag
    size := f.size
    s3KeyFlag := f.s3KeyFlag
    isVideo := I.IsVideo videoExt f.path }

/-- The row of a new work. -/
def newWork (dir : Text) (count videoCount totalSize : ℤ) (resolution edition tech source : Text) :
    Work :=
  let heading := I.heading dir
  { dir
    heading
    cat := (splitCategory dir).1
    sub := (splitCategory dir).2
    fileCount := count
    videoCount
    totalSize
    resolution
    edition
    tmdbStatus :=
      if heading.tmdbId = none ∨ heading.tmdbId = some 0 then "none".toList else "pending".toList
    tech
    source }

/-- The counters of `import_payload`. -/
structure Tally where
  added : ℤ := 0
  skipped : ℤ := 0
  mergedWorks : ℤ := 0
  mergedFiles : ℤ := 0
  mergedSize : ℤ := 0
  addedFiles : ℤ := 0
  addedSize : ℤ := 0

/-- A round of the loop of `import_payload`. -/
def importWork (mode : Mode) (name : Text) (st : Db × Tally) (work : Text × WorkInfo) :
    Db × Tally :=
  let db := st.1
  let t := st.2
  let dir := work.1
  let info := work.2
  if db.works.Has dir then
    if mode = .merge then
      let existingPaths := (filesIn db.files dir).map (·.path)
      let newFiles := info.files.filter fun f => f.path ∉ existingPaths
      if newFiles = [] then st
      else
        let db := { db with files := db.files.insertAll (newFiles.map (payloadRow I videoExt dir)) }
        (recomputeWorkStats I db dir,
          { t with
            mergedWorks := t.mergedWorks + 1
            mergedFiles := t.mergedFiles + newFiles.length
            mergedSize := t.mergedSize + (newFiles.map (·.size)).sum })
    else (db, { t with skipped := t.skipped + 1 })
  else
    let row := newWork I dir info.count info.videoCount info.totalSize info.resolution info.edition
      (I.detailed (info.files.map (·.fileName))) name
    ({ db with
        works := db.works.insertOrReplace row
        files := db.files.insertAll (info.files.map (payloadRow I videoExt dir)) },
      { t with
        added := t.added + 1
        addedFiles := t.addedFiles + info.count
        addedSize := t.addedSize + info.totalSize })

/-- The row of `library_sources` and the report. -/
def finishImport (db : Db) (importedAt name commonPath : Text) (r : Report) : Db :=
  { db with
    sources := db.sources.insertOrReplace
      ⟨name, importedAt, commonPath, r.added, r.fileCount, r.totalSize⟩ }

def Tally.report (t : Tally) : Report :=
  { added := t.added
    skipped := t.skipped
    mergedWorks := t.mergedWorks
    mergedFiles := t.mergedFiles
    fileCount := t.addedFiles + t.mergedFiles
    totalSize := t.addedSize + t.mergedSize }

/-- In the mode `skip` the works of the source are deleted first, and their enrichment is
restored. -/
def importPayload (mode : Mode) (importedAt name commonPath : Text) (files : List Entry) (db : Db) :
    Db × Report :=
  let commonPath := Text.strip '/' commonPath
  let files := files.map fun f => { f with path := joinCommon commonPath f.path }
  let works := aggregateWorks I videoExt commonPath files
  let snapshot := if mode = .skip then snapshotEnrichment I db name else []
  let db := if mode = .skip then clearWorks db name else db
  let r := works.foldl (importWork I videoExt mode name) (db, {})
  let db := finishImport r.1 importedAt name commonPath r.2.report
  ({ db with works := restoreEnrichment snapshot (fun dir => dir ∈ works.map (·.1)) db.works },
    r.2.report)

end Payload

section Stream

variable (I : Inference) (videoExt : List Text)

/-! ### `import_stream` -/

def MERGE_PATH_SET_LIMIT : ℕ := 200000

/-- What is gathered of a new work; `names` is what its technical states were fed with. -/
structure Stat where
  count : ℤ := 0
  videoCount : ℤ := 0
  totalSize : ℤ := 0
  names : List Text := []

/-- The variables of the loop. -/
structure StreamState where
  files : Table WorkFile.key
  batch : List WorkFile := []
  stats : List (Text × Stat) := []
  verdicts : List (Text × Bool) := []
  existingPaths : List (Text × List Text) := []
  merged : List (Text × ℤ × ℤ) := []
  largeRoots : List Text := []
  addedFiles : ℤ := 0
  addedSize : ℤ := 0

/-- The work and the row of an entry; its name decides whether it is a video. -/
def streamRow (commonPath : Text) (f : Entry) : Option WorkFile :=
  let path := joinCommon commonPath f.path
  let fname := if f.fileName = [] then Text.lastPart '/' path else f.fileName
  (splitWork path (fallbackRoot commonPath)).map fun split =>
    { dir := split.1
      path := if path = [] then fname else path
      fileName := fname
      etag := f.etag
      size := f.size
      s3KeyFlag := f.s3KeyFlag
      isVideo := I.IsVideo videoExt fname }

variable (mode : Mode) (works : Table Work.dir) (batchSize : ℤ)

/-- The first row of a work: is the work there, and what are its paths? -/
def StreamState.look (st : StreamState) (root : Text) : StreamState × Bool :=
  match Dict.get? root st.verdicts with
  | some verdict => (st, verdict)
  | none =>
    let verdict : Bool := works.Has root
    let st := { st with verdicts := st.verdicts ++ [(root, verdict)] }
    if mode = .merge ∧ verdict then
      let files := filesIn st.files root
      if files.length ≤ MERGE_PATH_SET_LIMIT then
        ({ st with existingPaths := st.existingPaths ++ [(root, files.map (·.path))] }, verdict)
      else ({ st with largeRoots := root :: st.largeRoots }, verdict)
    else (st, verdict)

/-- `executemany`. -/
def StreamState.flush (st : StreamState) : StreamState :=
  { st with files := st.files.insertAll st.batch, batch := [] }

/-- `executemany`, with the batch counted as added. -/
def StreamState.flushAdded (st : StreamState) : StreamState :=
  { st with
    files := st.files.insertAll st.batch
    batch := []
    addedFiles := st.addedFiles + st.batch.length
    addedSize := st.addedSize + bytesOf st.batch }

/-- A round of the loop of `import_stream`, for an entry with a work. -/
def StreamState.row (st : StreamState) (f : WorkFile) : StreamState :=
  let root := f.dir
  let r := st.look mode works root
  let st := r.1
  if r.2 then
    if mode ≠ .merge ∨ root ∈ st.largeRoots then st
    else if f.path ∈ (Dict.get? root st.existingPaths).getD [] then st
    else
      let st :=
        { st with
          existingPaths := Dict.modify root [] (· ++ [f.path]) st.existingPaths
          merged := Dict.modify root (0, 0) (fun g => (g.1 + 1, g.2 + f.size)) st.merged
          batch := st.batch ++ [f] }
      if batchSize ≤ st.batch.length then st.flush else st
  else
    let st :=
      { st with
        batch := st.batch ++ [f]
        stats := Dict.modify root {}
          (fun g =>
            { count := g.count + 1
              videoCount := g.videoCount + if f.isVideo then 1 else 0
              totalSize := g.totalSize + f.size
              names := if f.isVideo then g.names ++ [f.fileName] else g.names })
          st.stats }
    if batchSize ≤ st.batch.length then st.flushAdded else st

/-- The rows of `library_works` after the loop. -/
def streamWork (name : Text) (g : Text × Stat) : Work :=
  let technical := I.technical g.2.names
  newWork I g.1 g.2.count g.2.videoCount g.2.totalSize technical.1 technical.2
    (I.detailed g.2.names) name

def importStream (importedAt name commonPath : Text) (files : List Entry) (db : Db) : Db × Report :=
  let snapshot := if mode = .skip then snapshotEnrichment I db name else []
  let db := if mode = .skip then clearWorks db name else db
  let st := (files.filterMap (streamRow I videoExt commonPath)).foldl
    (StreamState.row mode db.works batchSize) { files := db.files }
  let st := if st.batch = [] then st else st.flushAdded
  let works := db.works.insertAll (st.stats.map (streamWork I name))
  let mergedFiles := (st.merged.map (·.2.1)).sum
  let report : Report :=
    { added := st.stats.length
      skipped := st.verdicts.countP fun v => v.2 ∧ v.1 ∉ st.merged.map (·.1)
      mergedWorks := st.merged.length
      mergedFiles
      fileCount := st.addedFiles + mergedFiles
      totalSize := st.addedSize + (st.merged.map (·.2.2)).sum }
  let db := (st.merged.map (·.1)).foldl (recomputeWorkStats I) { db with files := st.files, works }
  let db := finishImport db importedAt name commonPath report
  ({ db with
      works := restoreEnrichment snapshot (fun dir => Dict.get? dir st.verdicts = some false)
        db.works },
    report)

end Stream

end AllInOneBackup.Cloud123.Library
