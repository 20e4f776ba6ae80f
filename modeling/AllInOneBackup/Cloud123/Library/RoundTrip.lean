import AllInOneBackup.Cloud123.Library.Backup
import AllInOneBackup.Cloud123.Library.Integrity

/-! A backup gives a library back where each row of `library_works` reads by position as it does by
name, as it does in a database that was created with `_SCHEMA`. Where a backup is read into a
library that has works, their rows stay; their files stay where the backup has no other files for
them. -/

namespace AllInOneBackup.Cloud123.Library.Backup

open Data Data.Keyed Column

variable {q : Sqlite}

/-! ### The works -/

section Works

variable {w : Works q} {src : Order} {rows : List Row} {r : Row}

theorem order_insertOrIgnore : (w.insertOrIgnore src r).order = w.order := by
  unfold Works.insertOrIgnore
  dsimp only
  split_ifs
  · rfl
  · rfl

/-- The rows of a backup are taken in their order, or left out. -/
theorem exists_sublist_foldl (src : Order) (rows : List Row) (w : Works q) :
    ∃ s, s.Sublist (rows.map (move q src w.order)) ∧
      (rows.foldl (·.insertOrIgnore src ·) w).rows = w.rows ++ s := by
  induction rows generalizing w with
  | nil => exact ⟨[], List.nil_sublist _, (List.append_nil _).symm⟩
  | cons r rows ih =>
    obtain ⟨s, hs, heq⟩ := ih (w.insertOrIgnore src r)
    rw [order_insertOrIgnore] at hs
    rw [List.foldl_cons, heq, List.map_cons]
    unfold Works.insertOrIgnore
    dsimp only
    split_ifs
    · exact ⟨move q src w.order r :: s, hs.cons_cons _, by simp⟩
    · exact ⟨s, hs.cons _, rfl⟩

/-- Rows that the table takes together with its own are all inserted. -/
theorem rows_foldl_of_taken (h : Taken (w.rows ++ rows.map (move q src w.order))) :
    (rows.foldl (·.insertOrIgnore src ·) w).rows = w.rows ++ rows.map (move q src w.order) := by
  induction rows generalizing w with
  | nil => simp
  | cons r rows ih =>
    have hone : (w.insertOrIgnore src r).rows = w.rows ++ [move q src w.order r] := by
      have hfits : NotNull (move q src w.order r) ∧
          ∀ r₀ ∈ w.rows, ¬Conflict r₀ (move q src w.order r) := by
        refine ⟨h.notNull _ (by simp), fun r₀ hr₀ => ?_⟩
        exact (List.pairwise_append.mp h.keys).2.2 r₀ hr₀ _ (by simp)
      unfold Works.insertOrIgnore
      dsimp only
      rw [dif_pos hfits]
    rw [List.foldl_cons, ih]
    · rw [hone, order_insertOrIgnore]
      simp
    · rw [hone, order_insertOrIgnore]
      simpa using h

end Works

/-! ### Playback -/

section Playback

variable {t : Table Playback.key} {rows : List Playback} {p : Playback} {k : Text × Text}

def find (k : Text × Text) (rows : List Playback) : Option Playback := rows.find? (·.key = k)

/-- Of two records the one with the later update, the old one where they have the same. -/
def newer : Option Playback → Option Playback → Option Playback
  | some old, some new => if old.updatedAt < new.updatedAt then some new else some old
  | none, new => new
  | old, none => old

theorem fst_importPlayback : (importPlayback t rows).1 = rows.foldl upsertNewer t := by
  unfold importPlayback
  have hstart : ∀ st : Table Playback.key × ℕ, (rows.foldl
      (fun st p =>
        let kept := st.1.rows.any fun old => old.key = p.key ∧ ¬old.updatedAt < p.updatedAt
        (upsertNewer st.1 p, if kept then st.2 else st.2 + 1)) st).1 =
      rows.foldl upsertNewer st.1 := by
    induction rows with
    | nil => exact fun st => rfl
    | cons p rows ih => exact fun st => ih _
  exact hstart (t, 0)

theorem find_upsertNewer : find k (upsertNewer t p).rows =
    if p.key = k then newer (find k t.rows) (some p) else find k t.rows := by
  unfold upsertNewer
  cases hold : t.rows.find? fun old => old.key = p.key with
  | none =>
    change (replaceIn Playback.key t.rows p).find? (Playback.key · = k) = _
    rw [find?_replaceIn]
    split_ifs with hk
    · subst hk
      unfold find
      rw [hold]
      rfl
    · rfl
  | some old =>
    dsimp only
    split_ifs with hlt hk hk
    · change (replaceIn Playback.key t.rows p).find? (Playback.key · = k) = _
      subst hk
      rw [find?_replaceIn, if_pos rfl]
      unfold find
      rw [hold]
      exact (if_pos hlt).symm
    · change (replaceIn Playback.key t.rows p).find? (Playback.key · = k) = _
      rw [find?_replaceIn, if_neg hk]
      rfl
    · subst hk
      unfold find
      rw [hold]
      exact (if_neg hlt).symm
    · rfl

theorem find_foldl_upsertNewer (h : (rows.map Playback.key).Nodup) :
    find k (rows.foldl upsertNewer t).rows = newer (find k t.rows) (find k rows) := by
  induction rows generalizing t with
  | nil =>
    change find k t.rows = newer (find k t.rows) none
    cases find k t.rows <;> rfl
  | cons p rows ih =>
    obtain ⟨hp, h⟩ := List.nodup_cons.mp h
    rw [List.foldl_cons, ih h, find_upsertNewer]
    by_cases hk : p.key = k
    · subst hk
      have hnone : find p.key rows = none := by
        rw [find, List.find?_eq_none]
        intro p' hp'
        have hne : p'.key ≠ p.key := fun heq => hp (heq ▸ List.mem_map_of_mem hp')
        simpa using hne
      have hhead : find p.key (p :: rows) = some p := List.find?_cons_of_pos (by simp)
      rw [if_pos rfl, hnone, hhead]
      cases newer (find p.key t.rows) (some p) <;> rfl
    · have hhead : find k (p :: rows) = find k rows := List.find?_cons_of_neg (by simpa using hk)
      rw [if_neg hk, hhead]

/-- Records that are all new are added in their order. -/
theorem rows_foldl_upsertNewer (h : ((t.rows ++ rows).map Playback.key).Nodup) :
    (rows.foldl upsertNewer t).rows = t.rows ++ rows := by
  induction rows generalizing t with
  | nil => exact (List.append_nil _).symm
  | cons p rows ih =>
    have hsplit : t.rows ++ p :: rows = (t.rows ++ [p]) ++ rows := by simp
    have hp : p.key ∉ t.rows.map Playback.key := by
      rw [List.map_append, List.map_cons] at h
      intro hmem
      exact List.disjoint_of_nodup_append h hmem List.mem_cons_self
    have hone : (upsertNewer t p).rows = t.rows ++ [p] := by
      obtain heq | ⟨-, hhas⟩ := upsertNewer_cases t p
      · rw [heq]
        exact replaceIn_of_not_mem hp
      · exact absurd hhas hp
    rw [List.foldl_cons, ih (by rw [hone, ← hsplit]; exact h), hone, hsplit]

end Playback

/-! ### The round trip -/

/-- The backup of a library, read into an empty one, has the rows of the library: `order` is the
order of the columns in the empty one. -/
def RoundTrip (db : Database q) (order : Order) : Prop :=
  ∃ bak counts db' counts', db.exported = some (bak, counts) ∧
    (Database.empty order).imported bak = some (db', counts') ∧
    db'.sources = db.sources ∧ db'.works.rows = db.works.rows ∧ db'.files = db.files ∧
    db'.playback = db.playback

/-- The column at a position. -/
def Column.nth (order : Order) (i : Fin schemaOrder.length) : Column :=
  order.val.get (i.cast order.property.length_eq.symm)

/-- The rows by position, against the names: what stands at a position, as `_SCHEMA` types the
column there, is no null where that column is required and no key of two rows; and as the new library
types its column there, it is what the row has under that name. -/
structure Aligned (db : Database q) (order : Order) : Prop where
  required : ∀ r ∈ db.works.rows, ∀ i, (Column.nth fresh i).required = true →
    q.convert (Column.nth fresh i).affinity (r (Column.nth db.works.order i)) ≠ .null
  keys : db.works.rows.Pairwise fun r r' =>
    let key (r : Row) := q.convert dir.affinity (r (Column.nth db.works.order ⟨0, by decide⟩))
    key r = key r' → key r = .null
  cells : ∀ r ∈ db.works.rows, ∀ i,
    q.convert (Column.nth order i).affinity
      (q.convert (Column.nth fresh i).affinity (r (Column.nth db.works.order i))) =
      r (Column.nth order i)

theorem exists_nth (order : Order) (c : Column) : ∃ i, Column.nth order i = c := by
  obtain ⟨n, hn⟩ := List.mem_iff_get.mp (order.property.mem_iff.mpr (mem_schemaOrder c))
  exact ⟨n.cast order.property.length_eq, hn⟩

/-- A row is moved from position to position. -/
theorem move_nth (src dst : Order) (r : Row) (i : Fin schemaOrder.length) :
    move q src dst r (Column.nth dst i) =
      q.convert (Column.nth dst i).affinity (r (Column.nth src i)) := by
  have hnodup : dst.val.Nodup := dst.property.nodup_iff.mpr (by decide)
  have hidx : dst.val.idxOf (Column.nth dst i) = i := hnodup.idxOf_getElem i _
  have hlt : (i : ℕ) < src.val.length := by
    rw [src.property.length_eq]
    exact i.isLt
  have hget : src.val.getD i (Column.nth dst i) = Column.nth src i := by
    rw [List.getD_eq_getElem?_getD, List.getElem?_eq_getElem hlt]
    rfl
  rw [move, hidx, hget]

/-- What the copies make of the rows. -/
theorem aligned_iff (db : Database q) (order : Order) :
    Aligned db order ↔ Taken (db.works.rows.map (move q db.works.order fresh)) ∧
      ∀ r ∈ db.works.rows, move q fresh order (move q db.works.order fresh r) = r := by
  have hkey : ∀ r, move q db.works.order fresh r dir =
      q.convert dir.affinity (r (Column.nth db.works.order ⟨0, by decide⟩)) := fun r =>
    move_nth db.works.order fresh r ⟨0, by decide⟩
  have hconflict : ∀ r r', ¬Conflict (move q db.works.order fresh r)
      (move q db.works.order fresh r') ↔
      (q.convert dir.affinity (r (Column.nth db.works.order ⟨0, by decide⟩)) =
          q.convert dir.affinity (r' (Column.nth db.works.order ⟨0, by decide⟩)) →
        q.convert dir.affinity (r (Column.nth db.works.order ⟨0, by decide⟩)) = .null) := by
    intro r r'
    rw [Conflict, hkey, hkey, not_and', not_not]
  constructor
  · intro h
    refine ⟨⟨?_, ?_⟩, fun r hr => funext fun c => ?_⟩
    · rw [List.forall_mem_map]
      intro r hr c _ hrequired
      obtain ⟨i, rfl⟩ := exists_nth fresh c
      rw [move_nth]
      exact h.required r hr i hrequired
    · rw [List.pairwise_map]
      exact h.keys.imp fun hkeys => (hconflict _ _).mpr hkeys
    · obtain ⟨i, rfl⟩ := exists_nth order c
      rw [move_nth, move_nth]
      exact h.cells r hr i
  · rintro ⟨htaken, hcells⟩
    refine ⟨fun r hr i hrequired => ?_, ?_, fun r hr i => ?_⟩
    · rw [← move_nth]
      exact htaken.notNull _ (List.mem_map_of_mem hr) _ (mem_schemaOrder _) hrequired
    · exact (List.pairwise_map.mp htaken.keys).imp fun hkeys => (hconflict _ _).mp hkeys
    · rw [← move_nth, ← move_nth, hcells r hr]

theorem roundTrip_iff_aligned (db : Database q) (order : Order) :
    RoundTrip db order ↔ Aligned db order := by
  have hplayback : (importPlayback ∅ db.playback.rows).1 = db.playback := by
    rw [fst_importPlayback]
    exact Table.ext (rows_foldl_upsertNewer db.playback.nodup)
  rw [aligned_iff]
  constructor
  · rintro ⟨bak, counts, db', counts', hexported, himported, -, hworks, -, -⟩
    obtain ⟨works, hworks', hbak⟩ := Option.map_eq_some_iff.mp hexported
    unfold Works.exported at hworks'
    split_ifs at hworks' with htaken
    refine ⟨htaken, ?_⟩
    obtain rfl := Option.some.inj hworks'
    obtain ⟨rfl, -⟩ := Prod.mk.inj hbak
    obtain ⟨rfl, -⟩ := Prod.mk.inj (Option.some.inj himported)
    -- all rows of the backup are taken, as there are as many as in the library
    obtain ⟨s, hs, heq⟩ := exists_sublist_foldl fresh
      (db.works.rows.map (move q db.works.order fresh)) (Works.empty q order)
    have hrows : s = db.works.rows := heq.symm.trans hworks
    subst hrows
    have hall := hs.eq_of_length (by simp)
    rw [List.map_map] at hall
    intro r hr
    exact (List.map_inj_left.mp (hall.symm.trans (List.map_id _).symm)) r hr
  · rintro ⟨htaken, hcells⟩
    have hexported : db.works.exported = some _ := dif_pos htaken
    have hmoved : (db.works.rows.map (move q db.works.order fresh)).map
        (move q fresh order) = db.works.rows := by
      rw [List.map_map]
      exact (List.map_congr_left hcells).trans (List.map_id _)
    refine ⟨_, _, _, _, by rw [Database.exported, hexported]; rfl, rfl, ?_, ?_, ?_, hplayback⟩
    · exact Table.ignoreAll_empty db.sources
    · refine (rows_foldl_of_taken ?_).trans hmoved
      change Taken ([] ++ (db.works.rows.map (move q db.works.order fresh)).map
        (move q fresh order))
      rw [hmoved]
      exact db.works.taken
    · exact Table.ignoreAll_empty db.files

/-! ### A library that has works -/

/-- There is a work with this directory. -/
def HasWork (db : Database q) (dir : Text) : Prop :=
  ∃ r ∈ db.works.rows, r Column.dir = .text dir

/-- The rows of a work. -/
def worksIn (rows : List Row) (dir : Text) : List Row := rows.filter (· Column.dir = .text dir)

/-- What a backup leaves of a library: the works with their statistics and files, and of each
playback the later record. -/
structure Kept (bak : BackupFile q) (db db' : Database q) : Prop where
  works : ∀ dir, HasWork db dir → worksIn db'.works.rows dir = worksIn db.works.rows dir
  files : ∀ dir, HasWork db dir → filesIn db'.files dir = filesIn db.files dir
  playback : ∀ k, find k db'.playback.rows =
    newer (find k db.playback.rows) (bak.playback.bind fun playback => find k playback.rows)

def ImportKeeps (bak : BackupFile q) (db : Database q) : Prop :=
  ∀ db' counts, db.imported bak = some (db', counts) → Kept bak db db'

/-- The backup has no other files for the works of the library. -/
def FilesKnown (bak : BackupFile q) (db : Database q) : Prop :=
  ∀ works files, bak.works = some works → bak.files = some files →
    ∀ f ∈ files, HasWork db f.dir → db.files.Has f.key

section Import

variable {db : Database q}

/-- No row with a key of the table is inserted. -/
theorem worksIn_foldl (src : Order) (rows : List Row) {dir : Text} (h : HasWork db dir) :
    worksIn (rows.foldl (·.insertOrIgnore src ·) db.works).rows dir =
      worksIn db.works.rows dir := by
  obtain ⟨r, hr, hdir⟩ := h
  obtain ⟨s, -, heq⟩ := exists_sublist_foldl src rows db.works
  have hkeys := (rows.foldl (·.insertOrIgnore src ·) db.works).taken.keys
  rw [heq] at hkeys ⊢
  have hnone : worksIn s dir = [] := by
    refine List.filter_eq_nil_iff.mpr fun r' hr' hdir' => ?_
    have hconflict := (List.pairwise_append.mp hkeys).2.2 r hr r' hr'
    refine hconflict ⟨by rw [hdir]; simp, ?_⟩
    rw [hdir, of_decide_eq_true hdir']
  change (db.works.rows ++ s).filter _ = _
  rw [List.filter_append]
  exact (congrArg (_ ++ ·) hnone).trans (List.append_nil _)

theorem filesIn_imported_iff (files new : Table WorkFile.key) (dir : Text) :
    filesIn (files.ignoreAll new.rows) dir = filesIn files dir ↔
      ∀ f ∈ new, f.dir = dir → files.Has f.key := by
  rw [filesIn_ignoreAll, List.append_right_eq_self, List.filter_eq_nil_iff]
  constructor
  · intro h f hf hdir
    simpa using h f (mem_filesIn.mpr ⟨hf, hdir⟩)
  · intro h f hf
    obtain ⟨hmem, hdir⟩ := mem_filesIn.mp hf
    simpa using h f hmem hdir

theorem importKeeps_iff (bak : BackupFile q) (db : Database q) :
    ImportKeeps bak db ↔ FilesKnown bak db := by
  cases hworks : bak.works with
  | none =>
    have hnone : db.imported bak = none := by
      unfold Database.imported
      rw [hworks]
    refine iff_of_true (fun db' counts h => ?_) fun works files h => ?_
    · rw [hnone] at h
      exact absurd h (by simp)
    · rw [hworks] at h
      exact absurd h (by simp)
  | some works =>
    cases hfiles : bak.files with
    | none =>
      have hnone : db.imported bak = none := by
        unfold Database.imported
        rw [hworks, hfiles]
      refine iff_of_true (fun db' counts h => ?_) fun works files _ h => ?_
      · rw [hnone] at h
        exact absurd h (by simp)
      · rw [hfiles] at h
        exact absurd h (by simp)
    | some files =>
      obtain ⟨counts, himported⟩ : ∃ counts, db.imported bak = some
          (⟨db.sources.ignoreAll (bak.sources.elim [] (·.rows)),
            works.rows.foldl (·.insertOrIgnore works.order ·) db.works,
            db.files.ignoreAll files.rows,
            (importPlayback db.playback (bak.playback.elim [] (·.rows))).1⟩, counts) := by
        unfold Database.imported
        rw [hworks, hfiles]
        exact ⟨_, rfl⟩
      constructor
      · intro hkeeps works' files' _ hfiles' f hf hwork
        obtain rfl := Option.some.inj (hfiles.symm.trans hfiles')
        have hkept := (hkeeps _ counts himported).files f.dir hwork
        exact (filesIn_imported_iff db.files files f.dir).mp hkept f hf rfl
      · intro hknown db' counts' himported'
        obtain ⟨rfl, -⟩ := Prod.mk.inj (Option.some.inj (himported.symm.trans himported'))
        refine
          { works := fun dir hwork => worksIn_foldl works.order works.rows hwork
            files := fun dir hwork => ?_
            playback := fun k => ?_ }
        · refine (filesIn_imported_iff db.files files dir).mpr fun f hf hdir => ?_
          exact hknown works files hworks hfiles f hf (hdir ▸ hwork)
        · change find k (importPlayback db.playback _).1.rows = _
          rw [fst_importPlayback]
          cases hplayback : bak.playback with
          | none =>
            change find k db.playback.rows = newer (find k db.playback.rows) none
            cases find k db.playback.rows <;> rfl
          | some playback => exact find_foldl_upsertNewer playback.nodup

end Import

/-- Both halves of what a backup is for: it gives a library back, and it leaves what is there. -/
theorem backup_right_iff (db : Database q) (order : Order) (bak : BackupFile q)
    (db₀ : Database q) :
    RoundTrip db order ∧ ImportKeeps bak db₀ ↔ Aligned db order ∧ FilesKnown bak db₀ :=
  and_congr (roundTrip_iff_aligned db order) (importKeeps_iff bak db₀)

/-- In a library that was created with `_SCHEMA` position and name agree. -/
theorem aligned_fresh {db : Database q} (h : db.works.order = fresh) : Aligned db fresh := by
  have hstored : ∀ r ∈ db.works.rows, ∀ i, q.convert (Column.nth fresh i).affinity
      (r (Column.nth db.works.order i)) = r (Column.nth fresh i) := by
    intro r hr i
    rw [h]
    exact db.works.stored r hr _
  have hkey : ∀ r ∈ db.works.rows, q.convert dir.affinity
      (r (Column.nth db.works.order ⟨0, by decide⟩)) = r dir := fun r hr =>
    hstored r hr ⟨0, by decide⟩
  refine ⟨fun r hr i hrequired => ?_, ?_, fun r hr i => ?_⟩
  · rw [hstored r hr]
    exact db.works.taken.notNull r hr _ (mem_schemaOrder _) hrequired
  · refine db.works.taken.keys.imp_of_mem fun {r r'} hr hr' hkeys heq => ?_
    dsimp only at heq ⊢
    rw [hkey r hr] at heq ⊢
    rw [hkey r' hr'] at heq
    exact not_not.mp fun hnull => hkeys ⟨hnull, heq⟩
  · rw [hstored r hr]
    exact db.works.stored r hr _

/-! ### A library of an old version -/

/-- What the database makes of values, but for texts that are numbers. -/
def plainSqlite : Sqlite where
  convert
    | .text, .integer n => .text (toString n).toList
    | .text, .real x => .text (toString x.num ++ ".0").toList
    | .integer, .real x => if x.den = 1 then .integer x.num else .real x
    | .real, .integer n => .real n
    | _, v => v
  idem a v := by
    cases a with
    | text => cases v <;> rfl
    | integer =>
      cases v with
      | real x =>
        dsimp only
        split_ifs with h
        · rfl
        · dsimp only
          rw [if_neg h]
      | _ => rfl
    | real => cases v <;> rfl

/-- A table without the columns that `_migrate` adds. -/
def oldColumns : List Column :=
  [dir, title, normTitle, year, tmdbId, cat, sub, pinyin, pinyinFirst, fileCount, videoCount,
    totalSize, source]

def oldOrder : Order :=
  ⟨migrate oldColumns, perm_migrate (by decide) fun c hc => by
    cases c <;> first | decide | exact absurd (by decide) hc⟩

/-- A work of the old table, with the defaults in the new columns. -/
def oldRow : Row
  | dir => .text "电影/海王 (2018) \x7btmdb-297802\x7d".toList
  | title | normTitle => .text "海王".toList
  | year => .null
  | tmdbId => .integer 297802
  | fileCount | videoCount | totalSize | enrichAttempts => .integer 0
  | voteAverage | popularity => .real 0
  | genres => .text "[]".toList
  | tmdbStatus => .text "pending".toList
  | source => .text "旧库.json".toList
  | _ => .text []

def oldLibrary : Database plainSqlite where
  sources := ∅
  works :=
    { order := oldOrder
      rows := [oldRow]
      stored := by
        intro r hr c
        rw [List.mem_singleton.mp hr]
        cases c <;> rfl
      taken := by decide }
  files := ∅
  playback := ∅

/-- The source of the work is in another column after the round trip. -/
theorem old_library_not_restored :
    ¬(RoundTrip oldLibrary fresh ∧
      ImportKeeps (⟨none, none, none, none⟩ : BackupFile plainSqlite) oldLibrary) := by
  rintro ⟨h, -⟩
  have hcells := ((roundTrip_iff_aligned oldLibrary fresh).mp h).cells oldRow List.mem_cons_self
  have hsource := hcells ⟨26, by decide⟩
  revert hsource
  decide +kernel

end AllInOneBackup.Cloud123.Library.Backup
