import AllInOneBackup.Data.KeyedTable
import AllInOneBackup.Data.Text
import Mathlib.Algebra.BigOperators.Group.List.Basic
import Mathlib.Algebra.Ring.Int.Defs
import Mathlib.Data.Rat.Defs

/-! The tables of the movie library, and the paths that decide to which work a file belongs. -/

namespace AllInOneBackup.Cloud123.Library

open Data Data.Keyed

/-! ### Paths -/

/-- A directory of a work carries its id in curly or square brackets. -/
def Tagged (seg : Text) : Prop :=
  "\x7btmdb-".toList <:+: seg ∨ "[tmdb-".toList <:+: seg

instance (seg : Text) : Decidable (Tagged seg) := inferInstanceAs (Decidable (_ ∨ _))

/-- The path down to the last directory with an id, or the directory itself. -/
def workRoot (d : Text) : Text :=
  match (Text.split '/' d).reverse.dropWhile fun seg => ¬Tagged seg with
  | [] => d
  | segs => Text.join '/' segs.reverse

/-- The directory of the work and the file name. -/
def splitWork (path fallbackRoot : Text) : Option (Text × Text) :=
  match Text.rsplitOnce '/' path with
  | some (d, name) => some (workRoot d, name)
  | none => if fallbackRoot = [] then none else some (workRoot fallbackRoot, path)

def splitCategory (dirPath : Text) : Text × Text :=
  let segs := (Text.split '/' dirPath).filter (· ≠ [])
  (segs.headD [], if segs.length > 2 then segs.getD 1 [] else [])

/-! ### Rows -/

structure Source where
  name : Text
  importedAt : Text
  commonPath : Text
  workCount : ℤ
  fileCount : ℤ
  totalSize : ℤ
  deriving DecidableEq

/-- What the name of the directory says about a work. -/
structure Heading where
  title : Text := []
  normTitle : Text := []
  year : Option ℤ := none
  tmdbId : Option ℤ := none
  pinyin : Text := []
  pinyinFirst : Text := []
  deriving DecidableEq

/-- What comes from TMDB. -/
structure Details where
  mediaType : Text := []
  genres : Text := "[]".toList
  region : Text := []
  posterPath : Text := []
  voteAverage : ℚ := 0
  overview : Text := []
  language : Text := []
  airStatus : Text := []
  popularity : ℚ := 0
  deriving DecidableEq

structure Work where
  dir : Text
  heading : Heading := {}
  cat : Text := []
  sub : Text := []
  fileCount : ℤ := 0
  videoCount : ℤ := 0
  totalSize : ℤ := 0
  resolution : Text := []
  edition : Text := []
  details : Details := {}
  tmdbStatus : Text := "none".toList
  enrichAttempts : ℤ := 0
  tech : Text := []
  source : Text
  deriving DecidableEq

structure WorkFile where
  dir : Text
  path : Text
  fileName : Text
  etag : Text
  size : ℤ
  s3KeyFlag : Text
  isVideo : Bool
  deriving DecidableEq

def WorkFile.key (f : WorkFile) : Text × Text := (f.dir, f.path)

structure Playback where
  dir : Text
  filePath : Text
  season : ℤ
  episode : ℤ
  cloudFileId : ℤ
  positionSec : ℚ
  durationSec : ℚ
  watched : Bool
  updatedAt : Text
  deriving DecidableEq

def Playback.key (p : Playback) : Text × Text := (p.dir, p.filePath)

structure Db where
  sources : Table Source.name
  works : Table Work.dir
  files : Table WorkFile.key
  playback : Table Playback.key

instance : EmptyCollection Db := ⟨⟨∅, ∅, ∅, ∅⟩⟩

/-! ### Statistics -/

/-- The count, the video count and the size of some files. -/
def countOf (files : List WorkFile) : ℤ := files.length

def videosOf (files : List WorkFile) : ℤ := files.countP (·.isVideo)

def bytesOf (files : List WorkFile) : ℤ := (files.map (·.size)).sum

/-- The files of a work. -/
def filesIn (files : Table WorkFile.key) (dir : Text) : List WorkFile :=
  files.rows.filter (·.dir = dir)

/-- What the names of files and directories tell, where this development does not follow it:
`parse_dir_name` with `norm` and `pinyin_keys`, `infer_technical`, `_tech_json` of
`infer_technical_detailed`, `str.lower` and `str.strip`, and a list of genres as JSON read and
written again. -/
structure Inference where
  heading : Text → Heading
  technical : List Text → Text × Text
  detailed : List Text → Text
  lower : Text → Text
  strip : Text → Text
  genres : Text → Text

namespace Inference

variable (I : Inference) (videoExt : List Text)

/-- `name.lower().endswith(tuple(ext_set))`. -/
def IsVideo (name : Text) : Prop := ∃ ext ∈ videoExt, ext <:+ I.lower name

instance (name : Text) : Decidable (I.IsVideo videoExt name) :=
  inferInstanceAs (Decidable (∃ ext ∈ videoExt, _))

end Inference

/-- A work with the counts and the technical attributes of its files. -/
def Work.recomputed (I : Inference) (files : List WorkFile) (dir : Text) (w : Work) : Work :=
  let names := (files.filter (·.isVideo)).map (·.fileName)
  if w.dir = dir then
    { w with
      fileCount := countOf files
      videoCount := videosOf files
      totalSize := bytesOf files
      resolution := (I.technical names).1
      edition := (I.technical names).2
      tech := I.detailed names }
  else w

theorem Work.recomputed_dir (I : Inference) (files : List WorkFile) (dir : Text) (w : Work) :
    (w.recomputed I files dir).dir = w.dir := by
  unfold Work.recomputed
  dsimp only
  split_ifs
  · rfl
  · rfl

/-- `_recompute_work_stats`. -/
def recomputeWorkStats (I : Inference) (db : Db) (dir : Text) : Db :=
  let files := filesIn db.files dir
  { db with works := db.works.update (·.recomputed I files dir) (Work.recomputed_dir I files dir) }

end AllInOneBackup.Cloud123.Library
