import AllInOneBackup.Cloud123.Library.Episodes
import AllInOneBackup.Cloud123.Library.Integrity

/-! What `merge_duplicate_works` leaves. The kept work has its own files, and of every other name
in the duplicates the first file, unless the path of that one is taken; the duplicates are gone, and
all else is as it was. -/

namespace AllInOneBackup.Cloud123.Library

open Data Data.Keyed

variable {I : Inference}

/-! ### The files that are taken over -/

/-- The name by which files are the same. -/
def lowerName (I : Inference) (f : WorkFile) : Text := I.lower f.fileName

section Incoming

variable {keepDir : Text} {keepNames : List Text} {files : List WorkFile} {f g : WorkFile}

theorem incoming_append (files files' : List WorkFile) :
    incoming I keepDir keepNames (files ++ files') =
      ((incoming I keepDir keepNames files).1 ++
          (incoming I keepDir (incoming I keepDir keepNames files).2 files').1,
        (incoming I keepDir (incoming I keepDir keepNames files).2 files').2) := by
  induction files generalizing keepNames with
  | nil => rfl
  | cons f files ih =>
    rw [List.cons_append, incoming, incoming]
    split_ifs with hf
    · exact ih
    · simp only [ih, List.cons_append]

theorem mem_names_incoming {n : Text} : n ∈ (incoming I keepDir keepNames files).2 ↔
    n ∈ keepNames ∨ n ∈ files.map (lowerName I) := by
  induction files generalizing keepNames with
  | nil => simp [incoming]
  | cons f files ih =>
    rw [incoming, List.map_cons, List.mem_cons]
    split_ifs with hf
    · rw [ih]
      refine ⟨Or.imp_right .inr, ?_⟩
      rintro (h | rfl | h)
      · exact .inl h
      · exact .inl hf
      · exact .inr h
    · rw [ih, List.mem_cons, or_assoc, or_left_comm]
      rfl

/-- Only new names are taken over, each of them once. -/
theorem nodup_incoming : ((incoming I keepDir keepNames files).1.map (lowerName I)).Nodup ∧
    ∀ f ∈ (incoming I keepDir keepNames files).1, lowerName I f ∉ keepNames := by
  induction files generalizing keepNames with
  | nil => exact ⟨List.nodup_nil, fun f hf => absurd hf List.not_mem_nil⟩
  | cons f files ih =>
    rw [incoming]
    split_ifs with hf
    · exact ih
    · obtain ⟨hnodup, hnew⟩ := @ih (I.lower f.fileName :: keepNames)
      refine ⟨List.nodup_cons.mpr ⟨fun hmem => ?_, hnodup⟩, fun g hg => ?_⟩
      · obtain ⟨g, hg, hname⟩ := List.mem_map.mp hmem
        exact hnew g hg (hname ▸ List.mem_cons_self)
      · rcases List.mem_cons.mp hg with rfl | hg
        · exact hf
        · exact fun hmem => hnew g hg (List.mem_cons_of_mem _ hmem)

theorem exists_of_mem_incoming (h : f ∈ (incoming I keepDir keepNames files).1) :
    ∃ g ∈ files, f = { g with dir := keepDir } := by
  induction files generalizing keepNames with
  | nil => exact absurd h List.not_mem_nil
  | cons g files ih =>
    rw [incoming] at h
    split_ifs at h with hg
    · obtain ⟨x, hx, heq⟩ := ih h
      exact ⟨x, List.mem_cons_of_mem g hx, heq⟩
    · rcases List.mem_cons.mp h with rfl | h
      · exact ⟨g, List.mem_cons_self, rfl⟩
      · obtain ⟨x, hx, heq⟩ := ih h
        exact ⟨x, List.mem_cons_of_mem g hx, heq⟩

/-- A name is there before, or is taken over. -/
theorem mem_names_iff {n : Text} : n ∈ (incoming I keepDir keepNames files).2 ↔
    n ∈ keepNames ∨ n ∈ (incoming I keepDir keepNames files).1.map (lowerName I) := by
  induction files generalizing keepNames with
  | nil => simp [incoming]
  | cons f files ih =>
    rw [incoming]
    split_ifs with hf
    · exact ih
    · rw [List.map_cons, List.mem_cons, ih, List.mem_cons, or_assoc, or_left_comm]
      rfl

end Incoming

/-! ### The rows that are inserted -/

/-- The files of a work, and behind them others whose path is not there yet, one after the other. -/
def addByPath (own files : List WorkFile) : List WorkFile :=
  files.foldl (fun fs f => if f.path ∈ fs.map (·.path) then fs else fs ++ [f]) own

section AddByPath

variable {own files : List WorkFile}

theorem addByPath_append (own files files' : List WorkFile) :
    addByPath own (files ++ files') = addByPath (addByPath own files) files' :=
  List.foldl_append

/-- Nothing goes, and only some of the others come. -/
theorem addByPath_spec (own files : List WorkFile) :
    ∃ added, addByPath own files = own ++ added ∧ added.Sublist files := by
  induction files generalizing own with
  | nil => exact ⟨[], (List.append_nil own).symm, List.Sublist.refl _⟩
  | cons f files ih =>
    rw [addByPath, List.foldl_cons]
    split_ifs with hf
    · obtain ⟨added, heq, hsublist⟩ := ih own
      exact ⟨added, heq, hsublist.cons f⟩
    · obtain ⟨added, heq, hsublist⟩ := ih (own ++ [f])
      exact ⟨f :: added, by rw [← addByPath, heq, List.append_assoc]; rfl, hsublist.cons_cons f⟩

/-- Every path is there afterwards. -/
theorem exists_path_addByPath {f : WorkFile} (h : f ∈ files) :
    ∃ g ∈ addByPath own files, g.path = f.path := by
  induction files generalizing own with
  | nil => exact absurd h List.not_mem_nil
  | cons x files ih =>
    rw [addByPath, List.foldl_cons, ← addByPath]
    rcases List.mem_cons.mp h with rfl | h
    · obtain ⟨added, heq, -⟩ :=
        addByPath_spec (if f.path ∈ own.map (·.path) then own else own ++ [f]) files
      rw [heq]
      split_ifs with hf
      · obtain ⟨g, hg, hpath⟩ := List.mem_map.mp hf
        exact ⟨g, List.mem_append_left _ hg, hpath⟩
      · exact ⟨f, List.mem_append_left _ (List.mem_append_right _ (List.mem_singleton_self f)), rfl⟩
    · exact ih h

/-- Where all paths are distinct, all come. -/
theorem addByPath_eq_append (hnodup : (files.map (·.path)).Nodup)
    (hnew : ∀ f ∈ files, f.path ∉ own.map (·.path)) : addByPath own files = own ++ files := by
  induction files generalizing own with
  | nil => exact (List.append_nil own).symm
  | cons f files ih =>
    obtain ⟨hf, hnodup⟩ := List.nodup_cons.mp hnodup
    rw [addByPath, List.foldl_cons, if_neg (hnew f List.mem_cons_self), ← addByPath,
      ih hnodup fun g hg => ?_, List.append_assoc]
    · rfl
    · rw [List.map_append, List.mem_append, not_or]
      refine ⟨hnew g (List.mem_cons_of_mem f hg), fun hmem => hf ?_⟩
      rw [List.map_singleton, List.mem_singleton] at hmem
      exact List.mem_map.mpr ⟨g, hg, hmem⟩

/-- The rows of a work that `INSERT OR IGNORE` leaves. -/
theorem filesIn_ignoreAll_self {t : Table WorkFile.key} {dir : Text}
    (h : ∀ f ∈ files, f.dir = dir) :
    filesIn (t.ignoreAll files) dir = addByPath (filesIn t dir) files := by
  induction files generalizing t with
  | nil => rfl
  | cons f files ih =>
    obtain ⟨hf, hfiles⟩ := List.forall_mem_cons.mp h
    change filesIn ((t.insertOrIgnore f).ignoreAll files) dir = _
    rw [ih hfiles, addByPath, addByPath, List.foldl_cons]
    congr 1
    have hhas : t.Has f.key ↔ f.path ∈ (filesIn t dir).map (·.path) := by
      rw [Table.has_iff, List.mem_map]
      constructor
      · rintro ⟨g, hg, hkey⟩
        obtain ⟨hdir, hpath⟩ := Prod.mk.inj hkey
        exact ⟨g, mem_filesIn.mpr ⟨hg, hdir.trans hf⟩, hpath⟩
      · rintro ⟨g, hg, hpath⟩
        obtain ⟨hmem, hdir⟩ := mem_filesIn.mp hg
        exact ⟨g, hmem, Prod.ext (hdir.trans hf.symm) hpath⟩
    unfold Table.insertOrIgnore
    by_cases hthere : t.Has f.key
    · rw [dif_pos hthere, if_pos (hhas.mp hthere)]
    · rw [dif_neg hthere, if_neg fun hmem => hthere (hhas.mpr hmem)]
      change (t.rows ++ [f]).filter _ = _
      have hone : [f].filter (·.dir = dir) = [f] := List.filter_eq_self.mpr (by simpa using hf)
      rw [List.filter_append, hone]
      rfl

end AddByPath

/-! ### The rounds -/

section MergedDirs

variable {db db' : Db} {keepDir : Text} {mergeDirs dirs : List Text} {st : Db × List Text}

/-- Files with the same path have the same name, as imports write them. -/
def NamedByPath (I : Inference) (db : Db) : Prop :=
  ∀ f ∈ db.files, ∀ g ∈ db.files, f.path = g.path → lowerName I f = lowerName I g

/-- What the files of the duplicates bring to the kept work. -/
def taken (I : Inference) (db : Db) (keepDir : Text) (dirs : List Text) :
    List WorkFile × List Text :=
  incoming I keepDir ((filesIn db.files keepDir).map (lowerName I))
    (dirs.flatMap (filesIn db.files))

/-- The library after some rounds, in which the works `dirs` were merged. -/
structure MergedDirs (I : Inference) (db : Db) (keepDir : Text) (mergeDirs dirs : List Text)
    (st : Db × List Text) : Prop where
  nodup : dirs.Nodup
  mem : ∀ d, d ∈ dirs ↔ d ∈ mergeDirs ∧ d ≠ keepDir ∧ db.works.Has d
  works : st.1.works = db.works.delete (·.dir ∈ dirs)
  playback : st.1.playback = db.playback.delete (·.dir ∈ dirs)
  sources : st.1.sources = db.sources
  others : ∀ d, d ≠ keepDir →
    filesIn st.1.files d = if d ∈ dirs then [] else filesIn db.files d
  kept : filesIn st.1.files keepDir =
    addByPath (filesIn db.files keepDir) (taken I db keepDir dirs).1
  names : st.2 = (taken I db keepDir dirs).2

theorem works_has_iff (h : MergedDirs I db keepDir mergeDirs dirs st) (d : Text) :
    st.1.works.Has d ↔ db.works.Has d ∧ d ∉ dirs := by
  rw [h.works]
  exact (has_delete (Q := fun d => decide (d ∈ dirs)) fun _ _ => rfl).trans (by simp)

theorem taken_append (d : Text) :
    taken I db keepDir (dirs ++ [d]) =
      ((taken I db keepDir dirs).1 ++
          (incoming I keepDir (taken I db keepDir dirs).2 (filesIn db.files d)).1,
        (incoming I keepDir (taken I db keepDir dirs).2 (filesIn db.files d)).2) := by
  unfold taken
  rw [List.flatMap_append, List.flatMap_singleton, incoming_append]

/-- A file that was taken over is one of a duplicate, but for its directory. -/
theorem exists_of_mem_taken {f : WorkFile} (h : f ∈ (taken I db keepDir dirs).1) :
    ∃ d ∈ dirs, ∃ g ∈ filesIn db.files d, f = { g with dir := keepDir } := by
  obtain ⟨g, hg, rfl⟩ := exists_of_mem_incoming h
  obtain ⟨d, hd, hg⟩ := List.mem_flatMap.mp hg
  exact ⟨d, hd, g, hg, rfl⟩

/-- Where files with one path have one name, all files of new names come to the kept work. -/
theorem MergedDirs.kept_of_named (h : MergedDirs I db keepDir mergeDirs dirs st)
    (hnamed : NamedByPath I db) : filesIn st.1.files keepDir =
      filesIn db.files keepDir ++ (taken I db keepDir dirs).1 := by
  have hsame : ∀ f ∈ (taken I db keepDir dirs).1, ∀ g ∈ db.files, g.path = f.path →
      lowerName I g = lowerName I f := by
    intro f hf g hg hpath
    obtain ⟨d, -, f₀, hf₀, rfl⟩ := exists_of_mem_taken hf
    exact hnamed g hg f₀ (mem_filesIn.mp hf₀).1 hpath
  obtain ⟨hnodup, hnew⟩ := @nodup_incoming I keepDir ((filesIn db.files keepDir).map (lowerName I))
    (dirs.flatMap (filesIn db.files))
  rw [h.kept]
  refine addByPath_eq_append ?_ fun f hf hmem => ?_
  · rw [List.Nodup, List.pairwise_map] at hnodup ⊢
    refine hnodup.imp_of_mem fun {f g} hf hg hne hpath => hne ?_
    obtain ⟨d, -, f₀, hf₀, rfl⟩ := exists_of_mem_taken hf
    exact hsame g hg f₀ (mem_filesIn.mp hf₀).1 hpath
  · obtain ⟨g, hg, hpath⟩ := List.mem_map.mp hmem
    apply hnew f hf
    rw [← hsame f hf g (mem_filesIn.mp hg).1 hpath]
    exact List.mem_map_of_mem hg

theorem MergedDirs.step (h : MergedDirs I db keepDir mergeDirs dirs st) (d : Text) :
    ∃ dirs', MergedDirs I db keepDir (mergeDirs ++ [d]) dirs' (mergeDuplicate I keepDir st d) := by
  have hhas := works_has_iff h d
  unfold mergeDuplicate
  dsimp only
  split_ifs with hskip
  · refine ⟨dirs, { h with mem := fun d' => ?_ }⟩
    rw [h.mem, List.mem_append, List.mem_singleton]
    refine ⟨fun ⟨hm, hrest⟩ => ⟨.inl hm, hrest⟩, ?_⟩
    rintro ⟨hm | rfl, hne, hbefore⟩
    · exact ⟨hm, hne, hbefore⟩
    · rcases hskip with heq | hgone
      · exact absurd heq hne
      · have hin : d' ∈ dirs := by
          by_contra hout
          exact hgone (hhas.mpr ⟨hbefore, hout⟩)
        exact (h.mem d').mp hin
  · obtain ⟨hne, hthere⟩ := not_or.mp hskip
    obtain ⟨hbefore, hout⟩ := hhas.mp (not_not.mp hthere)
    have hfiles : filesIn st.1.files d = filesIn db.files d := by
      rw [h.others d hne, if_neg hout]
    have hmem : ∀ d', d' ∈ dirs ++ [d] ↔ d' ∈ dirs ∨ d' = d := fun d' => by
      rw [List.mem_append, List.mem_singleton]
    have hdelete : ∀ d', (!decide (d' = d) && !decide (d' ∈ dirs)) = !decide (d' ∈ dirs ++ [d]) :=
      fun d' => by simp only [hmem, ← Bool.not_or, Bool.decide_or, Bool.or_comm]
    rw [hfiles]
    refine ⟨dirs ++ [d], ?_, fun d' => ?_, ?_, ?_, h.sources, fun d' hd' => ?_, ?_, ?_⟩
    · rw [List.nodup_append]
      refine ⟨h.nodup, List.nodup_singleton d, fun x hx y hy heq => hout ?_⟩
      rwa [← List.mem_singleton.mp hy, ← heq]
    · rw [hmem, h.mem, List.mem_append, List.mem_singleton]
      constructor
      · rintro (⟨hm, hrest⟩ | rfl)
        · exact ⟨.inl hm, hrest⟩
        · exact ⟨.inr rfl, hne, hbefore⟩
      · rintro ⟨hm | rfl, hrest⟩
        · exact .inl ⟨hm, hrest⟩
        · exact .inr rfl
    · apply Table.ext
      change st.1.works.rows.filter _ = _
      rw [h.works]
      change (db.works.rows.filter _).filter _ = db.works.rows.filter _
      rw [List.filter_filter]
      exact List.filter_congr fun w _ => hdelete w.dir
    · apply Table.ext
      change st.1.playback.rows.filter _ = _
      rw [h.playback]
      change (db.playback.rows.filter _).filter _ = db.playback.rows.filter _
      rw [List.filter_filter]
      exact List.filter_congr fun p _ => hdelete p.dir
    · change filesIn (Table.delete _ fun f => decide (f.dir = d)) d' = _
      rw [filesIn_delete fun x => x = d]
      by_cases heq : d' = d
      · rw [if_pos (decide_eq_true heq), if_pos ((hmem d').mpr (.inr heq))]
      · rw [if_neg (by simpa using heq),
          filesIn_ignoreAll_of_ne (fun f hf => dir_of_mem_incoming hf) hd', h.others d' hd']
        simp only [hmem, heq, or_false]
    · change filesIn (Table.delete _ fun f => decide (f.dir = d)) keepDir = _
      rw [filesIn_delete fun x => x = d, if_neg (by simpa using Ne.symm hne),
        filesIn_ignoreAll_self fun f hf => dir_of_mem_incoming hf, h.kept, taken_append, h.names,
        addByPath_append]
    · rw [taken_append, ← h.names]

theorem mergedDirs_start : MergedDirs I db keepDir [] []
    (db, (filesIn db.files keepDir).map (lowerName I)) where
  nodup := List.nodup_nil
  mem d := by simp
  works := Table.ext (List.filter_eq_self.mpr fun _ _ => rfl).symm
  playback := Table.ext (List.filter_eq_self.mpr fun _ _ => rfl).symm
  sources := rfl
  others d _ := (if_neg List.not_mem_nil).symm
  kept := rfl
  names := rfl

theorem MergedDirs.foldl (more : List Text)
    (h : MergedDirs I db keepDir mergeDirs dirs st) :
    ∃ dirs', MergedDirs I db keepDir (mergeDirs ++ more) dirs'
      (more.foldl (mergeDuplicate I keepDir) st) := by
  induction more generalizing mergeDirs dirs st with
  | nil =>
    rw [List.append_nil]
    exact ⟨dirs, h⟩
  | cons d more ih =>
    obtain ⟨dirs', h'⟩ := h.step d
    have hrest := ih h'
    rwa [List.append_assoc] at hrest

end MergedDirs

/-! ### The result -/

section Result

variable {db db' : Db} {keepDir : Text} {mergeDirs dirs : List Text}

/-- The season and the episode of a file. -/
def episodeOf (U : Unicode) (f : WorkFile) : Option (ℕ × ℕ) :=
  parseSeasonEpisode U f.path f.fileName

/-- What is left when the works `dirs` were merged into another one. -/
structure DuplicatesMerged (I : Inference) (U : Unicode) (db db' : Db) (keepDir : Text)
    (dirs : List Text) : Prop where
  /-- The own files, and behind them others of distinct new names. -/
  kept : ∃ added, filesIn db'.files keepDir = filesIn db.files keepDir ++ added ∧
    (added.map (lowerName I)).Nodup ∧
    (∀ f ∈ added, lowerName I f ∉ (filesIn db.files keepDir).map (lowerName I)) ∧
    ∀ f ∈ added, ∃ d ∈ dirs, ∃ g ∈ filesIn db.files d, f = { g with dir := keepDir }
  /-- Every file of a duplicate is there under its name, unless a file of that name has the path of
  a file that is there. -/
  names : ∀ d ∈ dirs, ∀ g ∈ filesIn db.files d,
    (∃ f ∈ filesIn db'.files keepDir, lowerName I f = lowerName I g) ∨
      ∃ f ∈ filesIn db'.files keepDir, ∃ d' ∈ dirs, ∃ g' ∈ filesIn db.files d',
        lowerName I g' = lowerName I g ∧ f.path = g'.path
  /-- It is there, where files with one path have one name. -/
  covered : NamedByPath I db → ∀ d ∈ dirs, ∀ g ∈ filesIn db.files d,
    ∃ f ∈ filesIn db'.files keepDir, lowerName I f = lowerName I g
  /-- No episode is lost then, where files of one name are of one episode. -/
  episodes : NamedByPath I db →
    (∀ f ∈ db.files, ∀ g ∈ db.files, lowerName I f = lowerName I g →
      episodeOf U f = episodeOf U g) →
    ∀ episode, (∃ f ∈ filesIn db'.files keepDir, episodeOf U f = episode) ↔
      ∃ d, (d = keepDir ∨ d ∈ dirs) ∧ ∃ g ∈ filesIn db.files d, episodeOf U g = episode
  others : ∀ d, d ≠ keepDir →
    filesIn db'.files d = if d ∈ dirs then [] else filesIn db.files d
  /-- The row of the kept work has its counts again, and the others are as they were. -/
  works : db'.works.rows = (db.works.rows.filter (·.dir ∉ dirs)).map
    (·.recomputed I (filesIn db'.files keepDir) keepDir)
  playback : db'.playback.rows = db.playback.rows.filter (·.dir ∉ dirs)
  sources : db'.sources = db.sources

section Covered

variable {st : Db × List Text} (h : MergedDirs I db keepDir mergeDirs dirs st)
include h

theorem MergedDirs.exists_kept : ∃ added,
    filesIn st.1.files keepDir = filesIn db.files keepDir ++ added ∧
      added.Sublist (taken I db keepDir dirs).1 := by
  rw [h.kept]
  exact addByPath_spec _ _

omit h in
/-- A name of a duplicate is one of the kept work, or a file of that name is to be inserted. -/
theorem mem_names_or {d : Text} (hd : d ∈ dirs) {g : WorkFile} (hg : g ∈ filesIn db.files d) :
    lowerName I g ∈ (filesIn db.files keepDir).map (lowerName I) ∨
      lowerName I g ∈ (taken I db keepDir dirs).1.map (lowerName I) :=
  mem_names_iff.mp (mem_names_incoming.mpr
    (.inr (List.mem_map_of_mem (List.mem_flatMap.mpr ⟨d, hd, hg⟩))))

theorem MergedDirs.names_spec {d : Text} (hd : d ∈ dirs) {g : WorkFile}
    (hg : g ∈ filesIn db.files d) :
    (∃ f ∈ filesIn st.1.files keepDir, lowerName I f = lowerName I g) ∨
      ∃ f ∈ filesIn st.1.files keepDir, ∃ d' ∈ dirs, ∃ g' ∈ filesIn db.files d',
        lowerName I g' = lowerName I g ∧ f.path = g'.path := by
  obtain ⟨added, hkept, -⟩ := h.exists_kept
  rcases mem_names_or hd hg with hmem | hmem
  · obtain ⟨f, hf, heq⟩ := List.mem_map.mp hmem
    exact .inl ⟨f, hkept ▸ List.mem_append_left _ hf, heq⟩
  · obtain ⟨x, hx, heq⟩ := List.mem_map.mp hmem
    obtain ⟨f, hf, hpath⟩ := @exists_path_addByPath (filesIn db.files keepDir) _ _ hx
    obtain ⟨d', hd', g', hg', rfl⟩ := exists_of_mem_taken hx
    exact .inr ⟨f, h.kept ▸ hf, d', hd', g', hg', heq, hpath⟩

variable (hnamed : NamedByPath I db)
include hnamed

theorem MergedDirs.covered {d : Text} (hd : d ∈ dirs) {g : WorkFile}
    (hg : g ∈ filesIn db.files d) :
    ∃ f ∈ filesIn st.1.files keepDir, lowerName I f = lowerName I g := by
  rw [h.kept_of_named hnamed]
  rcases mem_names_or hd hg with hmem | hmem
  · obtain ⟨f, hf, heq⟩ := List.mem_map.mp hmem
    exact ⟨f, List.mem_append_left _ hf, heq⟩
  · obtain ⟨f, hf, heq⟩ := List.mem_map.mp hmem
    exact ⟨f, List.mem_append_right _ hf, heq⟩

theorem MergedDirs.episodes (U : Unicode)
    (hsame : ∀ f ∈ db.files, ∀ g ∈ db.files, lowerName I f = lowerName I g →
      episodeOf U f = episodeOf U g) (episode : Option (ℕ × ℕ)) :
    (∃ f ∈ filesIn st.1.files keepDir, episodeOf U f = episode) ↔
      ∃ d, (d = keepDir ∨ d ∈ dirs) ∧ ∃ g ∈ filesIn db.files d, episodeOf U g = episode := by
  have hkept := h.kept_of_named hnamed
  constructor
  · rintro ⟨f, hf, rfl⟩
    rw [hkept] at hf
    rcases List.mem_append.mp hf with hf | hf
    · exact ⟨keepDir, .inl rfl, f, hf, rfl⟩
    · obtain ⟨d, hd, g, hg, rfl⟩ := exists_of_mem_taken hf
      exact ⟨d, .inr hd, g, hg, rfl⟩
  · rintro ⟨d, rfl | hd, g, hg, rfl⟩
    · exact ⟨g, hkept ▸ List.mem_append_left _ hg, rfl⟩
    · obtain ⟨f, hf, hname⟩ := h.covered hnamed hd hg
      refine ⟨f, hf, ?_⟩
      rw [hkept] at hf
      have hgdb := (mem_filesIn.mp hg).1
      rcases List.mem_append.mp hf with hf | hf
      · exact hsame f (mem_filesIn.mp hf).1 g hgdb hname
      · obtain ⟨d', -, f₀, hf₀, rfl⟩ := exists_of_mem_taken hf
        exact hsame f₀ (mem_filesIn.mp hf₀).1 g hgdb hname

end Covered

/-- Merging duplicates keeps the own files of the kept work, and of each other name in the merged
works at most one file: one, unless the path of a file of that name is there already. These works are
gone with their files and their playback, and the rows of all others are as they were. -/
theorem duplicates_merged (U : Unicode)
    (h : mergeDuplicateWorks I keepDir mergeDirs db = some db') :
    ∃ dirs : List Text, dirs.Nodup ∧
      (∀ d, d ∈ dirs ↔ d ∈ mergeDirs ∧ d ≠ keepDir ∧ db.works.Has d) ∧
      DuplicatesMerged I U db db' keepDir dirs := by
  unfold mergeDuplicateWorks at h
  split_ifs at h with hkeep
  obtain rfl := Option.some.inj h
  obtain ⟨dirs, hmerged⟩ : ∃ dirs, MergedDirs I db keepDir ([] ++ mergeDirs) dirs _ :=
    mergedDirs_start.foldl mergeDirs
  rw [List.nil_append] at hmerged
  have hdirs : ∀ {ρ : Type} (dir : ρ → Text) (rows : List ρ),
      rows.filter (fun r => !decide (dir r ∈ dirs)) = rows.filter (fun r => dir r ∉ dirs) :=
    fun dir rows => List.filter_congr fun r _ => by simp
  refine ⟨dirs, hmerged.nodup, hmerged.mem, ?_⟩
  exact
    { kept := by
        obtain ⟨added, hkept, hsublist⟩ := hmerged.exists_kept
        obtain ⟨hnodup, hnew⟩ := @nodup_incoming I keepDir
          ((filesIn db.files keepDir).map (lowerName I)) (dirs.flatMap (filesIn db.files))
        exact ⟨added, hkept, hnodup.sublist (hsublist.map _), fun f hf => hnew f (hsublist.subset hf),
          fun f hf => exists_of_mem_taken (hsublist.subset hf)⟩
      names := fun d hd g hg => hmerged.names_spec hd hg
      covered := fun hnamed d hd g hg => hmerged.covered hnamed hd hg
      episodes := fun hnamed hsame => hmerged.episodes hnamed U hsame
      others := hmerged.others
      works := by
        have hworks := congrArg Table.rows hmerged.works
        exact congrArg (List.map _) (hworks.trans (hdirs Work.dir db.works.rows))
      playback := by
        change (mergeDirs.foldl (mergeDuplicate I keepDir) _).1.playback.rows = _
        have hplayback := hmerged.playback
        exact (congrArg Table.rows hplayback).trans (hdirs Playback.dir db.playback.rows)
      sources := hmerged.sources }

end Result

/-! ### A library with a duplicate -/

/-- Names as they stand. -/
def asTheyStand : Inference where
  heading _ := {}
  technical _ := ([], [])
  detailed _ := []
  lower := id
  strip := id
  genres := id

/-- The first episode twice, the second one in the duplicate only. -/
def withDuplicate : Db :=
  let episode (dir name : String) : WorkFile :=
    ⟨dir.toList, (dir ++ "/" ++ name).toList, name.toList, [], 7, [], true⟩
  { sources := ∅
    works := ⟨[{ dir := "a".toList, source := [] }, { dir := "b".toList, source := [] }], by decide⟩
    files := ⟨[episode "a" "S01E01.mkv", episode "b" "S01E01.mkv", episode "b" "S01E02.mkv"],
      by decide⟩
    playback := ∅ }

theorem duplicates_merged_withDuplicate : ∃ db',
    mergeDuplicateWorks asTheyStand "a".toList ["b".toList] withDuplicate = some db' ∧
      (filesIn db'.files "a".toList).map (·.path) = ["a/S01E01.mkv".toList, "b/S01E02.mkv".toList] ∧
      ∃ dirs : List Text, dirs.Nodup ∧
        (∀ d, d ∈ dirs ↔ d ∈ ["b".toList] ∧ d ≠ "a".toList ∧ withDuplicate.works.Has d) ∧
        DuplicatesMerged asTheyStand ⟨fun _ => none, fun _ => false, id⟩ withDuplicate db'
          "a".toList dirs := by
  obtain ⟨db', hdb', hpaths⟩ : ∃ db', mergeDuplicateWorks asTheyStand "a".toList ["b".toList]
      withDuplicate = some db' ∧
      (filesIn db'.files "a".toList).map (·.path) =
        ["a/S01E01.mkv".toList, "b/S01E02.mkv".toList] := ⟨_, if_pos (by decide), by decide⟩
  exact ⟨db', hdb', hpaths, duplicates_merged _ hdb'⟩

/-- The second file of the duplicate has the path of the kept one. -/
def withTakenPath : Db :=
  let episode (dir name : String) : WorkFile :=
    ⟨dir.toList, "1.mkv".toList, name.toList, [], 7, [], true⟩
  { withDuplicate with
    files := ⟨[episode "a" "S01E01.mkv", episode "b" "S01E02.mkv"], by decide⟩ }

/-- It is lost: its row is not inserted, and then its work is deleted. -/
example : (mergeDuplicateWorks asTheyStand "a".toList ["b".toList] withTakenPath).map
    (·.files.rows.map (·.fileName)) = some ["S01E01.mkv".toList] := by decide

end AllInOneBackup.Cloud123.Library
