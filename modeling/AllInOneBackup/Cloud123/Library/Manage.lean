import AllInOneBackup.Cloud123.Library.Tables

/-! What the movie library does besides imports: sources are deleted, merged and cleared, works are
deleted and merged, backups are read, and playback is recorded. -/

namespace AllInOneBackup.Cloud123.Library

open Data Data.Keyed

variable (I : Inference)

/-! ### Sources -/

def deleteSource (name : Text) (db : Db) : Db :=
  let inSource (dir : Text) : Bool := ∃ w ∈ db.works.rows, w.dir = dir ∧ w.source = name
  { playback := db.playback.delete fun p => inSource p.dir
    files := db.files.delete fun f => inSource f.dir
    works := db.works.delete fun w => w.source = name
    sources := db.sources.delete fun s => s.name = name }

/-- The counts of a source as the library has them. -/
def recountSource (name : Text) (db : Db) : Db :=
  let works := db.works.rows.filter (·.source = name)
  let files := db.files.rows.filter fun f => ∃ w ∈ works, w.dir = f.dir
  { db with
    sources := db.sources.update
      (fun s =>
        if s.name = name then
          { s with workCount := works.length, fileCount := countOf files, totalSize := bytesOf files }
        else s)
      fun s => by split_ifs <;> rfl }

/-- The works of some sources go to another one, which is created where it does not exist. -/
def mergeSources (now : Text) (fromNames : List Text) (toName : Text) (db : Db) : Db :=
  let clean := (fromNames.map I.strip).filter fun n => n ≠ [] ∧ n ≠ toName
  if toName = [] ∨ clean = [] then db
  else
    recountSource toName
      { db with
        sources := (db.sources.insertOrIgnore ⟨toName, now, [], 0, 0, 0⟩).delete (·.name ∈ clean)
        works := db.works.update
          (fun w => if w.source ∈ clean then { w with source := toName } else w)
          fun w => by split_ifs <;> rfl }

def clearSources (db : Db) : Db := { db with files := ∅, works := ∅, sources := ∅ }

/-! ### Works -/

/-- The rows of a duplicate that the kept work has no file name for, and the names after them. -/
def incoming (keepDir : Text) : List Text → List WorkFile → List WorkFile × List Text
  | keepNames, [] => ([], keepNames)
  | keepNames, f :: files =>
    if I.lower f.fileName ∈ keepNames then incoming keepDir keepNames files
    else
      let rest := incoming keepDir (I.lower f.fileName :: keepNames) files
      ({ f with dir := keepDir } :: rest.1, rest.2)

/-- A work is deleted with its files and its playback. -/
def dropWork (dir : Text) (db : Db) : Db :=
  { db with
    playback := db.playback.delete (·.dir = dir)
    files := db.files.delete (·.dir = dir)
    works := db.works.delete (·.dir = dir) }

/-- A round of `merge_duplicate_works`. -/
def mergeDuplicate (keepDir : Text) (st : Db × List Text) (mergeDir : Text) : Db × List Text :=
  let db := st.1
  if mergeDir = keepDir ∨ ¬db.works.Has mergeDir then st
  else
    let r := incoming I keepDir st.2 (filesIn db.files mergeDir)
    (dropWork mergeDir
      { db with files := db.files.ignoreAll r.1 }, r.2)

/-- `none` where it raises. -/
def mergeDuplicateWorks (keepDir : Text) (mergeDirs : List Text) (db : Db) : Option Db :=
  if db.works.Has keepDir then
    let keepNames := (filesIn db.files keepDir).map fun f => I.lower f.fileName
    some (recomputeWorkStats I (mergeDirs.foldl (mergeDuplicate I keepDir) (db, keepNames)).1 keepDir)
  else none

def deleteWorks (dirs : List Text) (db : Db) : Db :=
  let cleaned := (dirs.map I.strip).filter (· ≠ [])
  { db with
    works := db.works.delete (·.dir ∈ cleaned)
    files := db.files.delete (·.dir ∈ cleaned)
    playback := db.playback.delete (·.dir ∈ cleaned) }

/-- `none` where it raises. -/
def deleteCategory (cat sub : Text) (db : Db) : Option Db :=
  let cat := I.strip cat
  let sub := I.strip sub
  if cat = [] ∨ cat = "全部文件".toList then none
  else
    let rows := db.works.rows.filter fun w => w.cat = cat ∧ (sub = [] ∨ w.sub = sub)
    some (deleteWorks I (rows.map (·.dir)) db)

/-! ### Backups and playback -/

/-- Playback of which the later record is kept. -/
def upsertNewer (playback : Table Playback.key) (p : Playback) : Table Playback.key :=
  match playback.rows.find? fun old => old.key = p.key with
  | some old => if old.updatedAt < p.updatedAt then playback.insertOrReplace p else playback
  | none => playback.insertOrReplace p

/-- The rows of a backup, as they are read into the columns. -/
def importBackup (bak db : Db) : Db :=
  { sources := db.sources.ignoreAll bak.sources.rows
    works := db.works.ignoreAll bak.works.rows
    files := db.files.ignoreAll bak.files.rows
    playback := bak.playback.rows.foldl upsertNewer db.playback }

/-- What a caller says of a playback; `none` keeps the old value. -/
structure PlaybackUpdate where
  season : ℤ := 0
  episode : ℤ := 0
  cloudFileId : Option ℤ := none
  positionSec : Option ℚ := none
  durationSec : Option ℚ := none
  watched : Option Bool := none

def upsertPlayback (now dir filePath : Text) (u : PlaybackUpdate) (db : Db) : Db :=
  let old := db.playback.rows.find? fun p => p.key = (dir, filePath)
  { db with
    playback := db.playback.insertOrReplace
      { dir
        filePath
        season := u.season
        episode := u.episode
        cloudFileId := u.cloudFileId.getD (old.elim 0 (·.cloudFileId))
        positionSec := u.positionSec.getD (old.elim 0 (·.positionSec))
        durationSec := u.durationSec.getD (old.elim 0 (·.durationSec))
        watched := u.watched.getD (old.elim false (·.watched))
        updatedAt := now } }

end AllInOneBackup.Cloud123.Library
