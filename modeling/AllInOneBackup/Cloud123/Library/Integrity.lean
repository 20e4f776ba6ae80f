import AllInOneBackup.Cloud123.Library.Manage

/-! The integrity of the movie library: files and playback belong to works, works belong to sources,
and a work has the counts of its files. Every operation that manages the library keeps it, but for
the clearing of all sources, which leaves the playback, and the reading of a backup. -/

namespace AllInOneBackup.Cloud123.Library

open Data Data.Keyed

/-- The counts of a work are those of its files. -/
structure StatsRight (files : Table WorkFile.key) (w : Work) : Prop where
  fileCount : w.fileCount = countOf (filesIn files w.dir)
  videoCount : w.videoCount = videosOf (filesIn files w.dir)
  totalSize : w.totalSize = bytesOf (filesIn files w.dir)

/-- Files, playback and works refer to rows that exist. -/
structure Linked (db : Db) : Prop where
  files : ∀ f ∈ db.files, db.works.Has f.dir
  playback : ∀ p ∈ db.playback, db.works.Has p.dir
  sources : ∀ w ∈ db.works, db.sources.Has w.source

structure Consistent (db : Db) : Prop extends Linked db where
  stats : ∀ w ∈ db.works, StatsRight db.files w

section Files

variable {files files' : Table WorkFile.key} {f : WorkFile} {dir : Text} {w : Work}

theorem mem_filesIn : f ∈ filesIn files dir ↔ f ∈ files ∧ f.dir = dir := by
  unfold filesIn
  rw [List.mem_filter, decide_eq_true_eq]
  rfl

theorem filesIn_delete (Q : Text → Bool) :
    filesIn (files.delete fun f => Q f.dir) dir = if Q dir then [] else filesIn files dir := by
  change (files.rows.filter fun f => !Q f.dir).filter _ = _
  rw [List.filter_filter]
  split_ifs with hQ
  · rw [List.filter_eq_nil_iff]
    intro f _ hf
    simp only [Bool.and_eq_true, decide_eq_true_eq, Bool.not_eq_true'] at hf
    rw [hf.1, hQ] at hf
    exact absurd hf.2 (by simp)
  · refine List.filter_congr fun f _ => ?_
    by_cases hf : f.dir = dir
    · simp [hf, hQ]
    · simp [hf]

/-- The counts of a work depend on its files alone. -/
theorem StatsRight.congr {w' : Work} (h : StatsRight files w) (hdir : w'.dir = w.dir)
    (hfiles : filesIn files' w.dir = filesIn files w.dir) (hcount : w'.fileCount = w.fileCount)
    (hvideos : w'.videoCount = w.videoCount) (hsize : w'.totalSize = w.totalSize) :
    StatsRight files' w' where
  fileCount := by rw [hdir, hfiles, hcount, h.fileCount]
  videoCount := by rw [hdir, hfiles, hvideos, h.videoCount]
  totalSize := by rw [hdir, hfiles, hsize, h.totalSize]

end Files

/-! ### Deletions -/

section Delete

variable {db : Db} {P : Work → Bool} {Q : Text → Bool}

/-- The works that are left, where the directory decides. -/
theorem has_delete (hPQ : ∀ w ∈ db.works, P w = Q w.dir) {dir : Text} :
    (db.works.delete P).Has dir ↔ db.works.Has dir ∧ Q dir = false := by
  simp only [Table.has_iff, Table.mem_delete]
  constructor
  · rintro ⟨w, ⟨hw, hP⟩, rfl⟩
    exact ⟨⟨w, hw, rfl⟩, (hPQ w hw).symm.trans hP⟩
  · rintro ⟨⟨w, hw, rfl⟩, hQ⟩
    exact ⟨w, ⟨hw, (hPQ w hw).trans hQ⟩, rfl⟩

/-- Works are deleted with their files and their playback. -/
theorem Consistent.cascade (h : Consistent db) (hPQ : ∀ w ∈ db.works, P w = Q w.dir)
    {sources : Table Source.name}
    (hsources : ∀ w ∈ db.works, P w = false → sources.Has w.source) :
    Consistent
      { sources
        works := db.works.delete P
        files := db.files.delete fun f => Q f.dir
        playback := db.playback.delete fun p => Q p.dir } where
  files f hf := by
    obtain ⟨hf, hQ⟩ := Table.mem_delete.mp hf
    exact (has_delete hPQ).mpr ⟨h.files f hf, hQ⟩
  playback p hp := by
    obtain ⟨hp, hQ⟩ := Table.mem_delete.mp hp
    exact (has_delete hPQ).mpr ⟨h.playback p hp, hQ⟩
  sources w hw := by
    obtain ⟨hw, hP⟩ := Table.mem_delete.mp hw
    exact hsources w hw hP
  stats w hw := by
    obtain ⟨hw, hP⟩ := Table.mem_delete.mp hw
    apply (h.stats w hw).congr rfl _ rfl rfl rfl
    rw [filesIn_delete, if_neg (by rw [← hPQ w hw, hP]; simp)]

/-- A source and a directory say the same of the works that a deletion is about. -/
theorem source_eq_exists (name : Text) : ∀ w ∈ db.works, decide (w.source = name) =
    decide (∃ w' ∈ db.works.rows, w'.dir = w.dir ∧ w'.source = name) := by
  intro w hw
  rw [decide_eq_decide]
  constructor
  · exact fun hname => ⟨w, hw, rfl, hname⟩
  · rintro ⟨w', hw', hdir, hname⟩
    rwa [← Table.eq_of_key_eq hw' hw hdir]

theorem consistent_deleteSource (h : Consistent db) (name : Text) :
    Consistent (deleteSource name db) := by
  apply h.cascade (P := fun w => w.source = name)
    (Q := fun dir => ∃ w ∈ db.works.rows, w.dir = dir ∧ w.source = name) (source_eq_exists name)
  intro w hw hname
  obtain ⟨s, hs, heq⟩ := Table.has_iff.mp (h.sources w hw)
  refine Table.has_iff.mpr ⟨s, Table.mem_delete.mpr ⟨hs, ?_⟩, heq⟩
  rw [heq]
  exact hname

theorem consistent_deleteWorks (I : Inference) (h : Consistent db) (dirs : List Text) :
    Consistent (deleteWorks I dirs db) :=
  h.cascade (Q := fun dir => dir ∈ (dirs.map I.strip).filter (· ≠ [])) (fun _ _ => rfl)
    fun w hw _ => h.sources w hw

theorem consistent_deleteCategory {I : Inference} (h : Consistent db) {cat sub : Text} {db' : Db}
    (hdb' : deleteCategory I cat sub db = some db') : Consistent db' := by
  unfold deleteCategory at hdb'
  dsimp only at hdb'
  split_ifs at hdb'
  obtain rfl := Option.some.inj hdb'
  exact consistent_deleteWorks I h _

/-- The clearing of all sources leaves the playback. -/
theorem consistent_clearSources_iff : Consistent (clearSources db) ↔ db.playback.rows = [] := by
  constructor
  · intro h
    rw [List.eq_nil_iff_forall_not_mem]
    exact fun p hp => absurd (h.playback p hp) List.not_mem_nil
  · intro hnil
    refine
      { files := fun f hf => absurd hf List.not_mem_nil
        playback := fun p hp => ?_
        sources := fun w hw => absurd hw List.not_mem_nil
        stats := fun w hw => absurd hw List.not_mem_nil }
    change p ∈ db.playback.rows at hp
    rw [hnil] at hp
    exact absurd hp List.not_mem_nil

end Delete

/-! ### Updates -/

section Update

variable {db : Db} {g : Work → Work} (hg : ∀ w, (g w).dir = w.dir)

/-- An update leaves the directory and the counts of a work. -/
structure Keeps (g : Work → Work) : Prop where
  dir : ∀ w, (g w).dir = w.dir
  fileCount : ∀ w, (g w).fileCount = w.fileCount
  videoCount : ∀ w, (g w).videoCount = w.videoCount
  totalSize : ∀ w, (g w).totalSize = w.totalSize

theorem Consistent.update (h : Consistent db) (hkeeps : Keeps g) {sources : Table Source.name}
    (hsources : ∀ w ∈ db.works, sources.Has (g w).source) :
    Consistent { db with sources, works := db.works.update g hg } where
  files f hf := (Table.has_update hg).mpr (h.files f hf)
  playback p hp := (Table.has_update hg).mpr (h.playback p hp)
  sources w' hw' := by
    obtain ⟨w, hw, rfl⟩ := (Table.mem_update hg).mp hw'
    exact hsources w hw
  stats w' hw' := by
    obtain ⟨w, hw, rfl⟩ := (Table.mem_update hg).mp hw'
    exact (h.stats w hw).congr (hkeeps.dir w) rfl (hkeeps.fileCount w) (hkeeps.videoCount w)
      (hkeeps.totalSize w)

/-- An update of what the integrity is not about. -/
theorem consistent_update_iff (hkeeps : Keeps g) (hsource : ∀ w, (g w).source = w.source) :
    Consistent { db with works := db.works.update g hg } ↔ Consistent db := by
  constructor
  · intro h
    have hmem : ∀ w ∈ db.works, g w ∈ db.works.update g hg :=
      fun w hw => (Table.mem_update hg).mpr ⟨w, hw, rfl⟩
    exact
      { files := fun f hf => (Table.has_update hg).mp (h.files f hf)
        playback := fun p hp => (Table.has_update hg).mp (h.playback p hp)
        sources := fun w hw => hsource w ▸ h.sources (g w) (hmem w hw)
        stats := fun w hw => (h.stats (g w) (hmem w hw)).congr (hkeeps.dir w).symm
          (by rw [hkeeps.dir w]) (hkeeps.fileCount w).symm (hkeeps.videoCount w).symm
          (hkeeps.totalSize w).symm }
  · exact fun h => h.update hg hkeeps fun w hw => (hsource w).symm ▸ h.sources w hw

end Update

/-! ### Merged sources -/

section Merge

variable {db : Db}

theorem has_recountSource {name k : Text} :
    (recountSource name db).sources.Has k ↔ db.sources.Has k := by
  apply Table.has_update
  intro s
  split_ifs
  · rfl
  · rfl

theorem consistent_recountSource (h : Consistent db) (name : Text) :
    Consistent (recountSource name db) where
  files := h.files
  playback := h.playback
  sources w hw := has_recountSource.mpr (h.sources w hw)
  stats := h.stats

/-- The works of the merged sources belong to a source that exists. -/
theorem consistent_mergeSources (I : Inference) (h : Consistent db) (now : Text)
    (fromNames : List Text) (toName : Text) :
    Consistent (mergeSources I now fromNames toName db) := by
  unfold mergeSources
  dsimp only
  split_ifs with hnone
  · exact h
  · apply consistent_recountSource
    have hkeeps : Keeps fun w : Work =>
        if w.source ∈ (fromNames.map I.strip).filter fun n => n ≠ [] ∧ n ≠ toName then
          { w with source := toName }
        else w :=
      ⟨fun w => by split_ifs <;> rfl, fun w => by split_ifs <;> rfl, fun w => by split_ifs <;> rfl,
        fun w => by split_ifs <;> rfl⟩
    apply h.update _ hkeeps
    intro w hw
    obtain ⟨s, hs, hname⟩ := Table.has_iff.mp (h.sources w hw)
    by_cases hclean : w.source ∈ (fromNames.map I.strip).filter fun n => n ≠ [] ∧ n ≠ toName
    · rw [if_pos hclean]
      obtain ⟨s', hs', hname'⟩ := Table.has_iff.mp
        (Table.has_insertOrIgnore.mpr (.inr rfl) :
          (db.sources.insertOrIgnore ⟨toName, now, [], 0, 0, 0⟩).Has toName)
      refine Table.has_iff.mpr ⟨s', Table.mem_delete.mpr ⟨hs', ?_⟩, hname'⟩
      rw [hname']
      simp
    · rw [if_neg hclean]
      refine Table.has_iff.mpr ⟨s, Table.mem_delete.mpr ⟨Table.mem_insertOrIgnore.mpr (.inl hs), ?_⟩,
        hname⟩
      rw [hname]
      exact decide_eq_false hclean

end Merge

/-! ### Merged works -/

section Duplicates

variable {I : Inference} {db : Db} {dir : Text}

/-- The files of a work are inserted by themselves. -/
theorem filesIn_insertAll {files : Table WorkFile.key} {rows : List WorkFile} :
    filesIn (files.insertAll rows) dir =
      (rows.filter (·.dir = dir)).foldl (replaceIn WorkFile.key) (filesIn files dir) := by
  apply Table.filter_insertAll
  intro f f' hkey
  have hdir : f'.dir = f.dir := (Prod.mk.inj hkey).1
  rw [hdir]

theorem filesIn_insertAll_of_ne {files : Table WorkFile.key} {rows : List WorkFile}
    (h : ∀ f ∈ rows, f.dir ≠ dir) : filesIn (files.insertAll rows) dir = filesIn files dir := by
  rw [filesIn_insertAll, List.filter_eq_nil_iff.mpr fun f hf => by simpa using h f hf]
  rfl

theorem filesIn_ignoreAll_of_ne {files : Table WorkFile.key} {rows : List WorkFile} {d : Text}
    (h : ∀ f ∈ rows, f.dir = d) (hne : dir ≠ d) :
    filesIn (files.ignoreAll rows) dir = filesIn files dir := by
  apply Table.filter_ignoreAll_of_not
  intro f hf
  rw [h f hf]
  exact decide_eq_false hne.symm

/-- What recomputes the counts of a work makes them right. -/
theorem consistent_recompute (hl : Linked db)
    (hs : ∀ w ∈ db.works, w.dir ≠ dir → StatsRight db.files w) :
    Consistent (recomputeWorkStats I db dir) := by
  have hdir := Work.recomputed_dir I (filesIn db.files dir) dir
  refine
    { files := fun f hf => (Table.has_update hdir).mpr (hl.files f hf)
      playback := fun p hp => (Table.has_update hdir).mpr (hl.playback p hp)
      sources := fun w' hw' => ?_
      stats := fun w' hw' => ?_ }
  · obtain ⟨w, hw, rfl⟩ := (Table.mem_update hdir).mp hw'
    have hsource := hl.sources w hw
    unfold Work.recomputed
    dsimp only
    split_ifs
    · exact hsource
    · exact hsource
  · obtain ⟨w, hw, rfl⟩ := (Table.mem_update hdir).mp hw'
    unfold Work.recomputed
    dsimp only
    by_cases heq : w.dir = dir
    · subst heq
      rw [if_pos rfl]
      exact ⟨rfl, rfl, rfl⟩
    · rw [if_neg heq]
      exact hs w hw heq

theorem dir_of_mem_incoming {keepDir : Text} {keepNames : List Text} {files : List WorkFile}
    {f : WorkFile} (h : f ∈ (incoming I keepDir keepNames files).1) : f.dir = keepDir := by
  induction files generalizing keepNames with
  | nil => exact absurd h List.not_mem_nil
  | cons g files ih =>
    unfold incoming at h
    dsimp only at h
    split_ifs at h
    · exact ih h
    · rcases List.mem_cons.mp h with rfl | h
      · rfl
      · exact ih h

/-- The library while duplicates are merged: only the counts of the kept work may be wrong. -/
structure Merging (keepDir : Text) (db : Db) : Prop extends Linked db where
  keep : db.works.Has keepDir
  stats : ∀ w ∈ db.works, w.dir ≠ keepDir → StatsRight db.files w

theorem merging_mergeDuplicate {keepDir mergeDir : Text} {keepNames : List Text}
    (h : Merging keepDir db) :
    Merging keepDir (mergeDuplicate I keepDir (db, keepNames) mergeDir).1 := by
  unfold mergeDuplicate
  dsimp only
  split_ifs with hskip
  · exact h
  · obtain ⟨hne, -⟩ := not_or.mp hskip
    have hrows : ∀ f ∈ (incoming I keepDir keepNames (filesIn db.files mergeDir)).1,
        f.dir = keepDir := fun f hf => dir_of_mem_incoming hf
    have hhas : ∀ d, (db.works.delete fun w => w.dir = mergeDir).Has d ↔
        db.works.Has d ∧ decide (d = mergeDir) = false :=
      fun d => has_delete (Q := fun d => d = mergeDir) fun _ _ => rfl
    refine
      { files := fun f hf => ?_
        playback := fun p hp => ?_
        sources := fun w hw => h.sources w (Table.mem_delete.mp hw).1
        keep := (hhas keepDir).mpr ⟨h.keep, decide_eq_false fun heq => hne heq.symm⟩
        stats := fun w hw hkeep => ?_ }
    · obtain ⟨hf, hdir⟩ := Table.mem_delete.mp hf
      refine (hhas f.dir).mpr ⟨?_, hdir⟩
      rcases Table.mem_of_mem_ignoreAll hf with hf | hf
      · exact h.files f hf
      · rw [hrows f hf]
        exact h.keep
    · obtain ⟨hp, hdir⟩ := Table.mem_delete.mp hp
      exact (hhas p.dir).mpr ⟨h.playback p hp, hdir⟩
    · obtain ⟨hw, hdir⟩ := Table.mem_delete.mp hw
      apply (h.stats w hw hkeep).congr rfl _ rfl rfl rfl
      change filesIn (Table.delete _ fun f => decide (f.dir = mergeDir)) w.dir = _
      rw [filesIn_delete fun d => d = mergeDir, if_neg (by rw [hdir]; simp)]
      exact filesIn_ignoreAll_of_ne hrows hkeep

theorem merging_foldl {keepDir : Text} (mergeDirs : List Text) {st : Db × List Text}
    (h : Merging keepDir st.1) :
    Merging keepDir (mergeDirs.foldl (mergeDuplicate I keepDir) st).1 := by
  induction mergeDirs generalizing st with
  | nil => exact h
  | cons d mergeDirs ih => exact ih (merging_mergeDuplicate h)

theorem consistent_mergeDuplicateWorks (h : Consistent db) {keepDir : Text}
    {mergeDirs : List Text} {db' : Db}
    (hdb' : mergeDuplicateWorks I keepDir mergeDirs db = some db') : Consistent db' := by
  unfold mergeDuplicateWorks at hdb'
  split_ifs at hdb' with hkeep
  obtain rfl := Option.some.inj hdb'
  have hstart : Merging keepDir (db, (filesIn db.files keepDir).map fun f => I.lower f.fileName).1 :=
    ⟨h.toLinked, hkeep, fun w hw _ => h.stats w hw⟩
  have hmerging := merging_foldl (I := I) mergeDirs hstart
  exact consistent_recompute hmerging.toLinked hmerging.stats

end Duplicates

/-! ### Backups and playback -/

section Backup

variable {db bak : Db}

theorem consistent_upsertPlayback (h : Consistent db) {dir : Text} (hdir : db.works.Has dir)
    (now filePath : Text) (u : PlaybackUpdate) :
    Consistent (upsertPlayback now dir filePath u db) where
  files := h.files
  playback p hp := by
    rcases Table.mem_insertOrReplace.mp hp with ⟨hp, -⟩ | rfl
    · exact h.playback p hp
    · exact hdir
  sources := h.sources
  stats := h.stats

/-- What a backup adds to the library is consistent with it: no file for a work that is there, and
works with their sources and the counts of their files. -/
structure Fits (bak db : Db) : Prop where
  files : ∀ f ∈ bak.files, ¬db.files.Has f.key → bak.works.Has f.dir ∧ ¬db.works.Has f.dir
  playback : ∀ p ∈ bak.playback, db.works.Has p.dir ∨ bak.works.Has p.dir
  sources : ∀ w ∈ bak.works, ¬db.works.Has w.dir →
    db.sources.Has w.source ∨ bak.sources.Has w.source
  stats : ∀ w ∈ bak.works, ¬db.works.Has w.dir → StatsRight bak.files w

theorem upsertNewer_cases (playback : Table Playback.key) (p : Playback) :
    upsertNewer playback p = playback.insertOrReplace p ∨
      upsertNewer playback p = playback ∧ playback.Has p.key := by
  unfold upsertNewer
  cases h : playback.rows.find? fun old => old.key = p.key with
  | none => exact .inl rfl
  | some old =>
    dsimp only
    split_ifs
    · exact .inl rfl
    · have hkey : old.key = p.key := by simpa using List.find?_some h
      exact .inr ⟨rfl, Table.has_iff.mpr ⟨old, List.mem_of_find?_eq_some h, hkey⟩⟩

theorem mem_foldl_upsertNewer {playback : Table Playback.key} {rows : List Playback} {p : Playback}
    (h : p ∈ rows.foldl upsertNewer playback) : p ∈ playback ∨ p ∈ rows := by
  induction rows generalizing playback with
  | nil => exact .inl h
  | cons r rows ih =>
    rcases ih h with hp | hp
    · obtain heq | ⟨heq, -⟩ := upsertNewer_cases playback r
      · rw [heq] at hp
        rcases Table.mem_insertOrReplace.mp hp with ⟨hp, -⟩ | rfl
        · exact .inl hp
        · exact .inr List.mem_cons_self
      · rw [heq] at hp
        exact .inl hp
    · exact .inr (List.mem_cons_of_mem r hp)

/-- The keys of the backup's playback are there afterwards. -/
theorem has_foldl_upsertNewer {playback : Table Playback.key} {rows : List Playback}
    {k : Text × Text} :
    (rows.foldl upsertNewer playback).Has k ↔ playback.Has k ∨ k ∈ rows.map Playback.key := by
  induction rows generalizing playback with
  | nil => simp
  | cons r rows ih =>
    have hone : (upsertNewer playback r).Has k ↔ playback.Has k ∨ k = r.key := by
      obtain heq | ⟨heq, hhas⟩ := upsertNewer_cases playback r
      · rw [heq, Table.has_insertOrReplace]
      · rw [heq]
        refine ⟨.inl, fun h => ?_⟩
        rcases h with h | rfl
        · exact h
        · exact hhas
    rw [List.foldl_cons, ih, hone, List.map_cons, List.mem_cons, or_assoc]

theorem filesIn_ignoreAll {files new : Table WorkFile.key} {dir : Text} :
    filesIn (files.ignoreAll new.rows) dir =
      filesIn files dir ++ (filesIn new dir).filter fun f => ¬files.Has f.key := by
  unfold filesIn
  rw [Table.rows_ignoreAll new.nodup, List.filter_append, List.filter_filter, List.filter_filter]
  congr 1
  exact List.filter_congr fun f _ => Bool.and_comm _ _

/-- A work that the library has not has all its files from the backup. -/
theorem filesIn_new (h : Linked db) {dir : Text} (hdir : ¬db.works.Has dir) :
    filesIn (db.files.ignoreAll bak.files.rows) dir = filesIn bak.files dir := by
  have hnone : filesIn db.files dir = [] := by
    rw [List.eq_nil_iff_forall_not_mem]
    intro f hf
    obtain ⟨hmem, rfl⟩ := mem_filesIn.mp hf
    exact hdir (h.files f hmem)
  rw [filesIn_ignoreAll, hnone, List.nil_append, List.filter_eq_self]
  intro f hf
  have hfree : ¬db.files.Has f.key := by
    intro hhas
    obtain ⟨f', hf', hkey⟩ := Table.has_iff.mp hhas
    have hdir' : f'.dir = f.dir := (Prod.mk.inj hkey).1
    rw [(mem_filesIn.mp hf).2] at hdir'
    exact hdir (hdir' ▸ h.files f' hf')
  exact decide_eq_true hfree

/-- A work that is there keeps its files where the backup has no others for it. -/
theorem filesIn_old {dir : Text} (hold : ∀ f ∈ bak.files, f.dir = dir → db.files.Has f.key) :
    filesIn (db.files.ignoreAll bak.files.rows) dir = filesIn db.files dir := by
  rw [filesIn_ignoreAll, List.filter_eq_nil_iff.mpr, List.append_nil]
  intro f hf
  obtain ⟨hmem, hdir⟩ := mem_filesIn.mp hf
  simp [hold f hmem hdir]

theorem fits_of_consistent (h : Consistent db) (h' : Consistent (importBackup bak db)) :
    Fits bak db where
  files f hf hfree := by
    have hf' : f ∈ (importBackup bak db).files :=
      (Table.mem_ignoreAll bak.files.nodup).mpr (.inr ⟨hf, hfree⟩)
    have hold : ¬db.works.Has f.dir := by
      intro hhas
      obtain ⟨w, hw, hdir⟩ := Table.has_iff.mp hhas
      have hw' : w ∈ (importBackup bak db).works :=
        (Table.mem_ignoreAll bak.works.nodup).mpr (.inl hw)
      -- the file makes the work larger than its count
      have hcount := (h.stats w hw).fileCount.symm.trans (h'.stats w hw').fileCount
      change countOf _ = countOf (filesIn (db.files.ignoreAll bak.files.rows) w.dir) at hcount
      rw [filesIn_ignoreAll, countOf, countOf, List.length_append] at hcount
      have hmem : f ∈ (filesIn bak.files w.dir).filter fun f => ¬db.files.Has f.key :=
        List.mem_filter.mpr ⟨mem_filesIn.mpr ⟨hf, hdir.symm⟩, decide_eq_true hfree⟩
      have hpos := List.length_pos_of_mem hmem
      omega
    exact ⟨(Table.has_ignoreAll.mp (h'.files f hf')).resolve_left hold, hold⟩
  playback p hp := by
    have hhas : (importBackup bak db).playback.Has p.key :=
      has_foldl_upsertNewer.mpr (.inr (List.mem_map.mpr ⟨p, hp, rfl⟩))
    obtain ⟨p', hp', hkey⟩ := Table.has_iff.mp hhas
    have hdir : p'.dir = p.dir := (Prod.mk.inj hkey).1
    exact Table.has_ignoreAll.mp (hdir ▸ h'.playback p' hp')
  sources w hw hnew := Table.has_ignoreAll.mp
    (h'.sources w ((Table.mem_ignoreAll bak.works.nodup).mpr (.inr ⟨hw, hnew⟩)))
  stats w hw hnew :=
    (h'.stats w ((Table.mem_ignoreAll bak.works.nodup).mpr (.inr ⟨hw, hnew⟩))).congr rfl
      (filesIn_new h.toLinked hnew).symm rfl rfl rfl

/-- A backup keeps the library consistent exactly where its new rows fit. -/
theorem consistent_importBackup_iff (h : Consistent db) :
    Consistent (importBackup bak db) ↔ Fits bak db := by
  refine ⟨fits_of_consistent h, fun hfits => ?_⟩
  refine
    { files := fun f hf => Table.has_ignoreAll.mpr ?_
      playback := fun p hp => Table.has_ignoreAll.mpr ?_
      sources := fun w hw => Table.has_ignoreAll.mpr ?_
      stats := fun w hw => ?_ }
  · rcases (Table.mem_ignoreAll bak.files.nodup).mp hf with hf | ⟨hf, hfree⟩
    · exact .inl (h.files f hf)
    · exact .inr (hfits.files f hf hfree).1
  · rcases mem_foldl_upsertNewer hp with hp | hp
    · exact .inl (h.playback p hp)
    · exact hfits.playback p hp
  · rcases (Table.mem_ignoreAll bak.works.nodup).mp hw with hw | ⟨hw, hnew⟩
    · exact .inl (h.sources w hw)
    · exact hfits.sources w hw hnew
  · rcases (Table.mem_ignoreAll bak.works.nodup).mp hw with hw | ⟨hw, hnew⟩
    · apply (h.stats w hw).congr rfl _ rfl rfl rfl
      refine filesIn_old fun f hf hdir => ?_
      by_contra hfree
      exact (hfits.files f hf hfree).2 (Table.has_iff.mpr ⟨w, hw, hdir.symm⟩)
    · exact (hfits.stats w hw hnew).congr rfl (filesIn_new h.toLinked hnew) rfl rfl rfl

end Backup

end AllInOneBackup.Cloud123.Library
