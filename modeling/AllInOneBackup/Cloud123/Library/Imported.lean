import AllInOneBackup.Cloud123.Library.Import
import AllInOneBackup.Cloud123.Library.Integrity

/-! What an import does to the library, whichever of the two it is: works that are there keep right
counts, and a new work is written with counts that its files may contradict. -/

namespace AllInOneBackup.Cloud123.Library

open Data Data.Keyed

/-- A new work: the rows of its files as they come, and the video count that is written. -/
structure NewWork where
  dir : Text
  rows : List WorkFile
  videoCount : ℤ

/-- The counts that are written are those of the rows in the table: no path comes twice, and the
video count is that of the rows. -/
def NewWork.Right (g : NewWork) : Prop :=
  (g.rows.map WorkFile.key).Nodup ∧ g.videoCount = videosOf g.rows

/-- The library after the works of an import, before its source is written; the counts of the
`pending` works are still to be made anew. -/
structure Imported (old : Db) (name : Text) (new : List NewWork) (pending : List Text) (db : Db) :
    Prop where
  sources : db.sources = old.sources
  playback : db.playback = old.playback
  has : ∀ dir, db.works.Has dir ↔ old.works.Has dir ∨ ∃ g ∈ new, g.dir = dir
  fresh : ∀ g ∈ new, ¬old.works.Has g.dir
  files : (∀ f ∈ old.files, old.works.Has f.dir) → ∀ f ∈ db.files, db.works.Has f.dir
  newFiles : (∀ f ∈ old.files, old.works.Has f.dir) →
    ∀ g ∈ new, filesIn db.files g.dir = g.rows.foldl (replaceIn WorkFile.key) []
  newWorks : ∀ g ∈ new, ∀ w ∈ db.works, w.dir = g.dir →
    w.fileCount = countOf g.rows ∧ w.videoCount = g.videoCount ∧ w.totalSize = bytesOf g.rows
  stats : (∀ w ∈ old.works, StatsRight old.files w) →
    ∀ w ∈ db.works, old.works.Has w.dir → w.dir ∉ pending → StatsRight db.files w
  works : ∀ w ∈ db.works, w.source = name ∨ ∃ w' ∈ old.works, w'.source = w.source

/-- The source of an import is written after its works. -/
theorem Imported.consistent_iff {old db : Db} {name : Text} {new : List NewWork}
    (h : Imported old name new [] db) {s : Source} (hs : s.name = name)
    (hfiles : ∀ f ∈ old.files, old.works.Has f.dir)
    (hsources : ∀ w ∈ old.works, old.sources.Has w.source)
    (hstats : ∀ w ∈ old.works, StatsRight old.files w) :
    Consistent { db with sources := db.sources.insertOrReplace s } ↔
      (∀ g ∈ new, g.Right) ∧ ∀ p ∈ old.playback, old.works.Has p.dir ∨ ∃ g ∈ new, g.dir = p.dir := by
  -- the counts of a new work are right where its rows all stay in the table
  have hnew : ∀ g ∈ new, ∀ w ∈ db.works, w.dir = g.dir → (StatsRight db.files w ↔ g.Right) := by
    intro g hg w hw hdir
    obtain ⟨hcount, hvideos, hsize⟩ := h.newWorks g hg w hw hdir
    have hrows := h.newFiles hfiles g hg
    constructor
    · intro hright
      have hlength := hright.fileCount
      rw [hcount, hdir, hrows, countOf, countOf, Int.ofNat_inj] at hlength
      have hnodup := length_foldl_replaceIn_iff.mp hlength.symm
      have hvideo := hright.videoCount
      rw [hvideos, hdir, hrows, foldl_replaceIn_of_nodup (by simpa using hnodup),
        List.nil_append] at hvideo
      exact ⟨hnodup, hvideo⟩
    · rintro ⟨hnodup, hvideo⟩
      rw [foldl_replaceIn_of_nodup (by simpa using hnodup), List.nil_append] at hrows
      exact
        { fileCount := by rw [hcount, hdir, hrows]
          videoCount := by rw [hvideos, hdir, hrows, hvideo]
          totalSize := by rw [hsize, hdir, hrows] }
  constructor
  · intro hc
    refine ⟨fun g hg => ?_, fun p hp => (h.has p.dir).mp (hc.playback p (h.playback ▸ hp))⟩
    obtain ⟨w, hw, hdir⟩ := Table.has_iff.mp ((h.has g.dir).mpr (.inr ⟨g, hg, rfl⟩))
    exact (hnew g hg w hw hdir).mp (hc.stats w hw)
  · rintro ⟨hright, hplayback⟩
    refine
      { files := h.files hfiles
        playback := fun p hp => (h.has p.dir).mpr (hplayback p (h.playback ▸ hp))
        sources := fun w hw => Table.has_insertOrReplace.mpr ?_
        stats := fun w hw => ?_ }
    · rcases h.works w hw with hname | ⟨w', hw', hsource⟩
      · exact .inr (hname.trans hs.symm)
      · rw [h.sources]
        exact .inl (hsource ▸ hsources w' hw')
    · rcases (h.has w.dir).mp (Table.has_iff.mpr ⟨w, hw, rfl⟩) with hold | ⟨g, hg, hdir⟩
      · exact h.stats hstats w hw hold List.not_mem_nil
      · exact (hnew g hg w hw hdir.symm).mpr (hright g hg)

/-- What an import brings is consistent with the library: its new works keep the rows and the videos
that they are counted with, and all playback has a work. -/
structure ImportFits (dirs : List Text) (work : Text → NewWork) (old : Db) : Prop where
  works : ∀ dir ∈ dirs, ¬old.works.Has dir → (work dir).Right
  playback : ∀ p ∈ old.playback, old.works.Has p.dir ∨ p.dir ∈ dirs

/-- The new works are those of the directories that are not there. -/
theorem Imported.consistent_iff_fits {old db : Db} {name : Text} {new : List NewWork}
    (h : Imported old name new [] db) {s : Source} (hs : s.name = name) {dirs : List Text}
    {work : Text → NewWork} (hwork : ∀ dir, (work dir).dir = dir)
    (hnew : ∀ g, g ∈ new ↔ ∃ dir ∈ dirs, ¬old.works.Has dir ∧ work dir = g)
    (hfiles : ∀ f ∈ old.files, old.works.Has f.dir)
    (hsources : ∀ w ∈ old.works, old.sources.Has w.source)
    (hstats : ∀ w ∈ old.works, StatsRight old.files w) :
    Consistent { db with sources := db.sources.insertOrReplace s } ↔ ImportFits dirs work old := by
  have hdir : ∀ dir, old.works.Has dir ∨ (∃ g ∈ new, g.dir = dir) ↔
      old.works.Has dir ∨ dir ∈ dirs := by
    intro dir
    constructor
    · rintro (hold | ⟨g, hg, rfl⟩)
      · exact .inl hold
      · obtain ⟨d, hd, -, rfl⟩ := (hnew g).mp hg
        rw [hwork]
        exact .inr hd
    · rintro (hold | hd)
      · exact .inl hold
      · by_cases hold : old.works.Has dir
        · exact .inl hold
        · exact .inr ⟨work dir, (hnew _).mpr ⟨dir, hd, hold, rfl⟩, hwork dir⟩
  rw [h.consistent_iff hs hfiles hsources hstats]
  constructor
  · rintro ⟨hright, hplayback⟩
    exact
      { works := fun dir hd hold => hright _ ((hnew _).mpr ⟨dir, hd, hold, rfl⟩)
        playback := fun p hp => (hdir p.dir).mp (hplayback p hp) }
  · intro hfits
    refine ⟨fun g hg => ?_, fun p hp => (hdir p.dir).mpr (hfits.playback p hp)⟩
    obtain ⟨dir, hd, hold, rfl⟩ := (hnew g).mp hg
    exact hfits.works dir hd hold

section Steps

variable {I : Inference} {old db : Db} {name dir : Text} {new : List NewWork}
  {pending : List Text} {rows : List WorkFile}

theorem imported_start (old : Db) (name : Text) : Imported old name [] [] old where
  sources := rfl
  playback := rfl
  has dir := by simp
  fresh := List.forall_mem_nil _
  files h := h
  newFiles _ := List.forall_mem_nil _
  newWorks := List.forall_mem_nil _
  stats h w hw _ _ := h w hw
  works w hw := .inr ⟨w, hw, rfl⟩

theorem Imported.ne (h : Imported old name new pending db) (hdir : old.works.Has dir) {g : NewWork}
    (hg : g ∈ new) : g.dir ≠ dir := fun heq => h.fresh g hg (heq ▸ hdir)

/-- Files go to a work that was there. -/
theorem Imported.insert (h : Imported old name new pending db) (hdir : old.works.Has dir)
    (hrows : ∀ f ∈ rows, f.dir = dir) :
    Imported old name new (dir :: pending) { db with files := db.files.insertAll rows } where
  sources := h.sources
  playback := h.playback
  has := h.has
  fresh := h.fresh
  files hfiles f hf := by
    rcases Table.mem_of_mem_insertAll hf with hf | hf
    · exact h.files hfiles f hf
    · rw [hrows f hf]
      exact (h.has dir).mpr (.inl hdir)
  newFiles hfiles g hg := by
    rw [filesIn_insertAll_of_ne fun f hf => by rw [hrows f hf]; exact (h.ne hdir hg).symm]
    exact h.newFiles hfiles g hg
  newWorks := h.newWorks
  stats hstats w hw hold hpending := by
    obtain ⟨hne, hpending⟩ := not_or.mp (mt List.mem_cons.mpr hpending)
    refine (h.stats hstats w hw hold hpending).congr rfl ?_ rfl rfl rfl
    exact filesIn_insertAll_of_ne fun f hf => by rw [hrows f hf]; exact fun heq => hne heq.symm
  works := h.works

/-- The counts of a work that was there are made anew. -/
theorem Imported.recompute (h : Imported old name new (dir :: pending) db)
    (hdir : old.works.Has dir) :
    Imported old name new pending (recomputeWorkStats I db dir) := by
  have hkeep := Work.recomputed_dir I (filesIn db.files dir) dir
  have hother : ∀ w : Work, w.dir ≠ dir → w.recomputed I (filesIn db.files dir) dir = w :=
    fun w hw => if_neg hw
  refine
    { sources := h.sources
      playback := h.playback
      has := fun d => (Table.has_update hkeep).trans (h.has d)
      fresh := h.fresh
      files := fun hfiles f hf => (Table.has_update hkeep).mpr (h.files hfiles f hf)
      newFiles := h.newFiles
      newWorks := fun g hg w' hw' hw'dir => ?_
      stats := fun hstats w' hw' hold hpending => ?_
      works := fun w' hw' => ?_ }
  · obtain ⟨w, hw, rfl⟩ := (Table.mem_update hkeep).mp hw'
    rw [hkeep] at hw'dir
    rw [hother w (hw'dir ▸ h.ne hdir hg)]
    exact h.newWorks g hg w hw hw'dir
  · obtain ⟨w, hw, rfl⟩ := (Table.mem_update hkeep).mp hw'
    rw [hkeep] at hold hpending
    by_cases heq : w.dir = dir
    · subst heq
      unfold Work.recomputed
      dsimp only
      rw [if_pos rfl]
      exact ⟨rfl, rfl, rfl⟩
    · rw [hother w heq]
      exact h.stats hstats w hw hold fun hmem => (List.mem_cons.mp hmem).elim heq hpending
  · obtain ⟨w, hw, rfl⟩ := (Table.mem_update hkeep).mp hw'
    have hsource : (w.recomputed I (filesIn db.files dir) dir).source = w.source := by
      unfold Work.recomputed
      dsimp only
      split_ifs
      · rfl
      · rfl
    rw [hsource]
    exact h.works w hw

theorem Imported.recomputeAll (h : Imported old name new pending db)
    (hdir : ∀ dir ∈ pending, old.works.Has dir) :
    Imported old name new [] (pending.foldl (recomputeWorkStats I) db) := by
  induction pending generalizing db with
  | nil => exact h
  | cons dir pending ih =>
    exact ih (h.recompute (hdir dir List.mem_cons_self)) fun d hd =>
      hdir d (List.mem_cons_of_mem dir hd)

/-- A work is added with its files. -/
theorem Imported.add (h : Imported old name new pending db) {w : Work} {videoCount : ℤ}
    (hdir : ¬db.works.Has w.dir) (hrows : ∀ f ∈ rows, f.dir = w.dir)
    (hcount : w.fileCount = countOf rows) (hsize : w.totalSize = bytesOf rows)
    (hvideos : w.videoCount = videoCount) (hsource : w.source = name) :
    Imported old name (new ++ [⟨w.dir, rows, videoCount⟩]) pending
      { db with works := db.works.insertOrReplace w, files := db.files.insertAll rows } := by
  have hold : ¬old.works.Has w.dir := fun hhas => hdir ((h.has w.dir).mpr (.inl hhas))
  have hne : ∀ g ∈ new, g.dir ≠ w.dir :=
    fun g hg heq => hdir ((h.has w.dir).mpr (.inr ⟨g, hg, heq⟩))
  have hother : ∀ d, d ≠ w.dir → filesIn (db.files.insertAll rows) d = filesIn db.files d :=
    fun d hd => filesIn_insertAll_of_ne fun f hf => by rw [hrows f hf]; exact hd.symm
  refine
    { sources := h.sources
      playback := h.playback
      has := fun d => ?_
      fresh := ?_
      files := fun hfiles f hf => Table.has_insertOrReplace.mpr ?_
      newFiles := fun hfiles => ?_
      newWorks := ?_
      stats := fun hstats w' hw' hhas hpending => ?_
      works := fun w' hw' => ?_ }
  · rw [Table.has_insertOrReplace, h.has d, or_assoc]
    refine or_congr Iff.rfl ?_
    simp only [List.mem_append, List.mem_singleton, or_and_right, exists_or, exists_eq_left]
    exact or_congr Iff.rfl eq_comm
  · intro g hg
    rcases List.mem_append.mp hg with hg | hg
    · exact h.fresh g hg
    · rw [List.mem_singleton.mp hg]
      exact hold
  · rcases Table.mem_of_mem_insertAll hf with hf | hf
    · exact .inl (h.files hfiles f hf)
    · exact .inr (hrows f hf)
  · intro g hg
    rcases List.mem_append.mp hg with hg | hg
    · exact (hother g.dir (hne g hg)).trans (h.newFiles hfiles g hg)
    · rw [List.mem_singleton.mp hg]
      have hnone : filesIn db.files w.dir = [] := by
        rw [List.eq_nil_iff_forall_not_mem]
        intro f hf
        obtain ⟨hmem, heq⟩ := mem_filesIn.mp hf
        exact hdir (heq ▸ h.files hfiles f hmem)
      have hall : rows.filter (·.dir = w.dir) = rows :=
        List.filter_eq_self.mpr fun f hf => decide_eq_true (hrows f hf)
      exact filesIn_insertAll.trans (by rw [hnone, hall])
  · intro g hg w' hw' hw'dir
    rcases List.mem_append.mp hg with hmem | hlast
    · rcases Table.mem_insertOrReplace.mp hw' with ⟨hthere, -⟩ | heq
      · exact h.newWorks g hmem w' hthere hw'dir
      · subst heq
        exact absurd hw'dir.symm (hne g hmem)
    · rw [List.mem_singleton.mp hlast] at hw'dir ⊢
      rcases Table.mem_insertOrReplace.mp hw' with ⟨hthere, -⟩ | heq
      · exact absurd (Table.has_iff.mpr ⟨w', hthere, hw'dir⟩) hdir
      · subst heq
        exact ⟨hcount, hvideos, hsize⟩
  · rcases Table.mem_insertOrReplace.mp hw' with ⟨hw', hw'dir⟩ | rfl
    · exact (h.stats hstats w' hw' hhas hpending).congr rfl (hother w'.dir hw'dir) rfl rfl rfl
    · exact absurd hhas hold
  · rcases Table.mem_insertOrReplace.mp hw' with ⟨hw', -⟩ | rfl
    · exact h.works w' hw'
    · exact .inl hsource

end Steps

end AllInOneBackup.Cloud123.Library
