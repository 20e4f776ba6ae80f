import AllInOneBackup.Cloud123.Library.Manage
import Mathlib.Data.List.Perm.Basic

/-! Backups of the movie library. `SELECT *` reads the columns of a table in their order there, and
`INSERT` stores them in the order of the other table. The order of `library_works` is that of
`_SCHEMA` only in a database that was created with it: `_migrate` adds columns at the end. The other
three tables always have the columns of `_SCHEMA`, so their rows are kept by name here. -/

namespace AllInOneBackup.Cloud123.Library.Backup

open Data Data.Keyed

/-! ### Columns -/

inductive Affinity
  | text
  | integer
  | real

inductive Value
  | null
  | integer (n : ℤ)
  | real (x : ℚ)
  | text (s : Text)
  | blob (bytes : List UInt8)
  deriving DecidableEq

/-- The columns of `library_works`. -/
inductive Column
  | dir | title | normTitle | year | tmdbId | cat | sub | pinyin | pinyinFirst
  | fileCount | videoCount | totalSize | resolution | edition
  | mediaType | genres | region | posterPath | voteAverage | overview | language | airStatus
  | popularity | tmdbStatus | enrichAttempts | tech | source
  deriving DecidableEq

namespace Column

def affinity : Column → Affinity
  | year | tmdbId | fileCount | videoCount | totalSize | enrichAttempts => .integer
  | voteAverage | popularity => .real
  | _ => .text

/-- `NOT NULL`; the primary key is not declared so. -/
def required : Column → Bool
  | dir | year | tmdbId => false
  | _ => true

/-- The order of `_SCHEMA`. -/
def schemaOrder : List Column :=
  [dir, title, normTitle, year, tmdbId, cat, sub, pinyin, pinyinFirst, fileCount, videoCount,
    totalSize, resolution, edition, mediaType, genres, region, posterPath, voteAverage, overview,
    language, airStatus, popularity, tmdbStatus, enrichAttempts, tech, source]

theorem mem_schemaOrder (c : Column) : c ∈ schemaOrder := by
  cases c <;> decide

/-- `new_columns`, and `tech`, which comes after them. -/
def newColumns : List Column :=
  [mediaType, genres, region, posterPath, voteAverage, overview, resolution, edition, language,
    airStatus, popularity, tmdbStatus, enrichAttempts, tech]

/-- The columns of an old table after `_migrate`. -/
def migrate (old : List Column) : List Column := old ++ newColumns.filter (· ∉ old)

/-- An order of all columns. -/
abbrev Order := {order : List Column // order.Perm schemaOrder}

/-- The order in a database that is created with `_SCHEMA`. -/
def fresh : Order := ⟨schemaOrder, List.Perm.refl _⟩

/-- An old table has all columns after `_migrate`. -/
theorem perm_migrate {old : List Column} (hnodup : old.Nodup)
    (hbase : ∀ c, c ∉ newColumns → c ∈ old) : (migrate old).Perm schemaOrder := by
  have hmigrate : (migrate old).Nodup := by
    have hnew : newColumns.Nodup := by decide
    refine List.nodup_append.mpr ⟨hnodup, hnew.filter _, fun c hc c' hc' heq => ?_⟩
    have hnot : c' ∉ old := by simpa using (List.mem_filter.mp hc').2
    exact hnot (heq ▸ hc)
  have hschema : schemaOrder.Nodup := by decide
  rw [List.perm_ext_iff_of_nodup hmigrate hschema]
  intro c
  refine iff_of_true ?_ (mem_schemaOrder c)
  rw [migrate, List.mem_append, List.mem_filter]
  by_cases hold : c ∈ old
  · exact .inl hold
  · exact .inr ⟨not_not.mp (mt (hbase c) hold), by simpa using hold⟩

end Column

open Column

/-! ### Rows -/

abbrev Row := Column → Value

/-- What the database makes of a value that is stored in a column. -/
structure Sqlite where
  convert : Affinity → Value → Value
  idem : ∀ a v, convert a (convert a v) = convert a v

/-- Two rows with one key; null is no key. -/
def Conflict (r r' : Row) : Prop := r dir ≠ .null ∧ r dir = r' dir

instance (r r' : Row) : Decidable (Conflict r r') := inferInstanceAs (Decidable (_ ∧ _))

def NotNull (r : Row) : Prop := ∀ c ∈ schemaOrder, c.required = true → r c ≠ .null

instance (r : Row) : Decidable (NotNull r) := inferInstanceAs (Decidable (∀ c ∈ schemaOrder, _))

/-- Rows that a table takes. -/
structure Taken (rows : List Row) : Prop where
  notNull : ∀ r ∈ rows, NotNull r
  keys : rows.Pairwise fun r r' => ¬Conflict r r'

instance (rows : List Row) : Decidable (Taken rows) :=
  decidable_of_iff ((∀ r ∈ rows, NotNull r) ∧ rows.Pairwise fun r r' => ¬Conflict r r')
    ⟨fun h => ⟨h.1, h.2⟩, fun h => ⟨h.notNull, h.keys⟩⟩

/-- The table `library_works`. -/
structure Works (q : Sqlite) where
  order : Order
  rows : List Row
  stored : ∀ r ∈ rows, ∀ c, q.convert c.affinity (r c) = r c
  taken : Taken rows

section Tables

variable (q : Sqlite)

/-- A row of one table as another table stores it. -/
def move (src dst : Order) (r : Row) : Row :=
  fun c => q.convert c.affinity (r (src.val.getD (dst.val.idxOf c) c))

variable {q} in
theorem convert_move (src dst : Order) (r : Row) (c : Column) :
    q.convert c.affinity (move q src dst r c) = move q src dst r c := q.idem _ _

variable {q} in
/-- `INSERT OR IGNORE`, which also ignores a row without a required value. -/
def Works.insertOrIgnore (w : Works q) (src : Order) (r : Row) : Works q :=
  let r' := move q src w.order r
  if h : NotNull r' ∧ ∀ r₀ ∈ w.rows, ¬Conflict r₀ r' then
    { w with
      rows := w.rows ++ [r']
      stored := by
        intro r₁ hr₁
        rcases List.mem_append.mp hr₁ with hr₁ | hr₁
        · exact w.stored r₁ hr₁
        · rw [List.mem_singleton.mp hr₁]
          exact convert_move src w.order r
      taken :=
        { notNull := by
            intro r₁ hr₁
            rcases List.mem_append.mp hr₁ with hr₁ | hr₁
            · exact w.taken.notNull r₁ hr₁
            · rw [List.mem_singleton.mp hr₁]
              exact h.1
          keys := by
            rw [List.pairwise_append]
            refine ⟨w.taken.keys, List.pairwise_singleton _ _, fun r₁ hr₁ r₂ hr₂ => ?_⟩
            rw [List.mem_singleton.mp hr₂]
            exact h.2 r₁ hr₁ } }
  else w

/-- A table without rows. -/
def Works.empty (order : Order) : Works q where
  order
  rows := []
  stored := List.forall_mem_nil _
  taken := ⟨List.forall_mem_nil _, List.Pairwise.nil⟩

variable {q} in
/-- `INSERT INTO bak.library_works SELECT *`, which fails where a row is not taken. -/
def Works.exported (w : Works q) : Option (Works q) :=
  if h : Taken (w.rows.map (move q w.order fresh)) then
    some
      { order := fresh
        rows := w.rows.map (move q w.order fresh)
        stored := by
          intro r hr
          obtain ⟨r', -, rfl⟩ := List.mem_map.mp hr
          exact convert_move w.order fresh r'
        taken := h }
  else none

/-! ### Databases -/

structure Database where
  sources : Table Source.name
  works : Works q
  files : Table WorkFile.key
  playback : Table Playback.key

/-- A backup may lack tables. -/
structure BackupFile where
  sources : Option (Table Source.name)
  works : Option (Works q)
  files : Option (Table WorkFile.key)
  playback : Option (Table Playback.key)

/-- The rows of each table that were written, and those of the first three that were not. -/
structure Counts where
  sources : ℕ
  works : ℕ
  files : ℕ
  playback : ℕ
  sourcesSkipped : ℕ := 0
  worksSkipped : ℕ := 0
  filesSkipped : ℕ := 0

variable {q}

def Database.empty (order : Order) : Database q := ⟨∅, .empty q order, ∅, ∅⟩

/-- `export_backup`. -/
def Database.exported (db : Database q) : Option (BackupFile q × Counts) :=
  db.works.exported.map fun works =>
    (⟨some db.sources, some works, some db.files, some db.playback⟩,
      { sources := db.sources.rows.length
        works := works.rows.length
        files := db.files.rows.length
        playback := db.playback.rows.length })

/-- The playback of a backup, with the number of rows that are inserted or updated. -/
def importPlayback (playback : Table Playback.key) (rows : List Playback) :
    Table Playback.key × ℕ :=
  rows.foldl
    (fun st p =>
      let kept := st.1.rows.any fun old => old.key = p.key ∧ ¬old.updatedAt < p.updatedAt
      (upsertNewer st.1 p, if kept then st.2 else st.2 + 1))
    (playback, 0)

/-- `import_backup`; `none` where it raises. -/
def Database.imported (bak : BackupFile q) (db : Database q) : Option (Database q × Counts) :=
  match bak.works, bak.files with
  | some bakWorks, some bakFiles =>
    let bakSources := bak.sources.elim [] (·.rows)
    let sources := db.sources.ignoreAll bakSources
    let works := bakWorks.rows.foldl (·.insertOrIgnore bakWorks.order ·) db.works
    let files := db.files.ignoreAll bakFiles.rows
    let playback := importPlayback db.playback (bak.playback.elim [] (·.rows))
    let newSources := sources.rows.length - db.sources.rows.length
    let newWorks := works.rows.length - db.works.rows.length
    let newFiles := files.rows.length - db.files.rows.length
    some
      (⟨sources, works, files, playback.1⟩,
        { sources := newSources
          works := newWorks
          files := newFiles
          playback := playback.2
          sourcesSkipped := bakSources.length - newSources
          worksSkipped := bakWorks.rows.length - newWorks
          filesSkipped := bakFiles.rows.length - newFiles })
  | _, _ => none

end Tables

end AllInOneBackup.Cloud123.Library.Backup
