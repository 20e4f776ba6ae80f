import AllInOneBackup.Cloud123.Library.Rounds
import AllInOneBackup.Concurrency.Pool

/-! Runs of the movie library. Three commands can leave it inconsistent: an import of a new work
whose files repeat a path or are counted as videos otherwise than they are stored, an import that
drops works with playback, or the clearing of the sources, and a backup with files for works that
are there already. Where none of them does, every state of a run is consistent. -/

namespace AllInOneBackup.Cloud123.Library

open Data Data.Keyed Concurrency

/-! ### Imports -/

/-- The library in which an import looks for its works. -/
def cleared (mode : Mode) (name : Text) (db : Db) : Db :=
  if mode = .skip then clearWorks db name else db

section Imports

variable {I : Inference} {videoExt : List Text} {mode : Mode} {name : Text} {db : Db}

/-- What is cleared leaves the files, the sources and the counts of the other works. -/
theorem Consistent.cleared (h : Consistent db) (mode : Mode) (name : Text) :
    (∀ f ∈ (cleared mode name db).files, (Library.cleared mode name db).works.Has f.dir) ∧
      (∀ w ∈ (Library.cleared mode name db).works,
        (Library.cleared mode name db).sources.Has w.source) ∧
      ∀ w ∈ (Library.cleared mode name db).works,
        StatsRight (Library.cleared mode name db).files w := by
  unfold Library.cleared
  split_ifs
  · have hc := h.cascade (P := fun w => w.source = name)
      (Q := fun dir => ∃ w ∈ db.works.rows, w.dir = dir ∧ w.source = name) (source_eq_exists name)
      fun w hw _ => h.sources w hw
    exact ⟨hc.files, hc.sources, hc.stats⟩
  · exact ⟨h.files, h.sources, h.stats⟩

theorem keeps_enriched (dir : Text) (details : Details) (year : Option ℤ) :
    Keeps (·.enriched dir details year) := by
  refine ⟨Work.enriched_dir dir details year, fun w => ?_, fun w => ?_, fun w => ?_⟩
  all_goals
    unfold Work.enriched
    by_cases h : w.dir = dir
    · rw [if_pos h]
    · rw [if_neg h]

theorem source_enriched (dir : Text) (details : Details) (year : Option ℤ) (w : Work) :
    (w.enriched dir details year).source = w.source := by
  unfold Work.enriched
  by_cases h : w.dir = dir
  · rw [if_pos h]
  · rw [if_neg h]

/-- What is restored of the enrichment does not matter. -/
theorem consistent_restoreEnrichment_iff (snapshot : List (Text × Details × Option ℤ))
    (P : Text → Bool) :
    Consistent { db with works := restoreEnrichment snapshot P db.works } ↔ Consistent db := by
  induction snapshot generalizing db with
  | nil => exact Iff.rfl
  | cons e snapshot ih =>
    have hone : Consistent
        { db with
          works := if P e.1 then applyEnrichment db.works e.1 e.2.1 e.2.2 else db.works } ↔
          Consistent db := by
      split_ifs
      · exact consistent_update_iff _ (keeps_enriched e.1 e.2.1 e.2.2)
          (source_enriched e.1 e.2.1 e.2.2)
      · exact Iff.rfl
    exact (@ih { db with works := _ }).trans hone

/-- The files of a payload with their paths joined to the common path. -/
def joined (commonPath : Text) (files : List Entry) : List Entry :=
  files.map fun f => { f with path := joinCommon (Text.strip '/' commonPath) f.path }

/-- What a payload may bring. -/
def PayloadFits (I : Inference) (videoExt : List Text) (mode : Mode) (name commonPath : Text)
    (files : List Entry) (db : Db) : Prop :=
  let commonPath' := Text.strip '/' commonPath
  let files' := joined commonPath files
  ImportFits ((splitFiles commonPath' files').map Prod.fst)
    (payloadWork I videoExt commonPath' files') (cleared mode name db)

theorem consistent_importPayload_iff (h : Consistent db) (importedAt commonPath : Text)
    (files : List Entry) :
    Consistent (importPayload I videoExt mode importedAt name commonPath files db).1 ↔
      PayloadFits I videoExt mode name commonPath files db := by
  obtain ⟨hfiles, hsources, hstats⟩ := h.cleared mode name
  have himported := @imported_aggregateWorks I videoExt mode
    (cleared mode name db) name (Text.strip '/' commonPath) (joined commonPath files) {}
  refine (consistent_restoreEnrichment_iff _ _).trans ?_
  exact himported.consistent_iff_fits (s := ⟨name, importedAt, _, _, _, _⟩) rfl (fun _ => rfl)
    (fun _ => mem_newWorks_iff) hfiles hsources hstats

/-- What a stream may bring. -/
def StreamFits (I : Inference) (videoExt : List Text) (mode : Mode) (name commonPath : Text)
    (files : List Entry) (db : Db) : Prop :=
  let rows := files.filterMap (streamRow I videoExt commonPath)
  ImportFits (rows.map (·.dir)) (rowsWork rows) (cleared mode name db)

theorem consistent_importStream_iff (h : Consistent db) (batchSize : ℤ)
    (importedAt commonPath : Text) (files : List Entry) :
    Consistent (importStream I videoExt mode batchSize importedAt name commonPath files db).1 ↔
      StreamFits I videoExt mode name commonPath files db := by
  obtain ⟨hfiles, hsources, hstats⟩ := h.cleared mode name
  set rows := files.filterMap (streamRow I videoExt commonPath)
  set st := rows.foldl (StreamState.row mode (cleared mode name db).works batchSize)
    { files := (cleared mode name db).files } with hst
  obtain ⟨-, emitted, hstreaming⟩ := streaming_foldl mode batchSize (cleared mode name db) rows
  rw [← hst] at hstreaming
  -- the last batch is written
  have hlast : Streaming (cleared mode name db) rows emitted
      (if st.batch = [] then st else st.flushAdded) ∧
      (if st.batch = [] then st else st.flushAdded).batch = [] := by
    split_ifs with hbatch
    · exact ⟨hstreaming, hbatch⟩
    · exact ⟨hstreaming.flushAdded, rfl⟩
  have himported := (hlast.1.imported (I := I) hlast.2 name).recomputeAll (I := I) hlast.1.merged
  refine (consistent_restoreEnrichment_iff _ _).trans ?_
  exact himported.consistent_iff_fits (s := ⟨name, importedAt, _, _, _, _⟩) rfl (fun _ => rfl)
    (fun _ => hlast.1.mem_streamWorks_iff) hfiles hsources hstats

end Imports

/-! ### Commands -/

inductive Command
  | importPayload (mode : Mode) (importedAt name commonPath : Text) (files : List Entry)
  | importStream (mode : Mode) (batchSize : ℤ) (importedAt name commonPath : Text)
      (files : List Entry)
  | deleteSource (name : Text)
  | mergeSources (now : Text) (fromNames : List Text) (toName : Text)
  | mergeDuplicateWorks (keepDir : Text) (mergeDirs : List Text)
  | deleteWorks (dirs : List Text)
  | deleteCategory (cat sub : Text)
  | clearSources
  | importBackup (bak : Db)
  | upsertPlayback (now dir filePath : Text) (update : PlaybackUpdate)

section Commands

variable (I : Inference) (videoExt : List Text)

/-- What raises leaves the library; playback is recorded for works that exist. -/
def apply (db : Db) : Command → Option Db
  | .importPayload mode importedAt name commonPath files =>
    some (importPayload I videoExt mode importedAt name commonPath files db).1
  | .importStream mode batchSize importedAt name commonPath files =>
    some (importStream I videoExt mode batchSize importedAt name commonPath files db).1
  | .deleteSource name => some (deleteSource name db)
  | .mergeSources now fromNames toName => some (mergeSources I now fromNames toName db)
  | .mergeDuplicateWorks keepDir mergeDirs =>
    some ((mergeDuplicateWorks I keepDir mergeDirs db).getD db)
  | .deleteWorks dirs => some (deleteWorks I dirs db)
  | .deleteCategory cat sub => some ((deleteCategory I cat sub db).getD db)
  | .clearSources => some (clearSources db)
  | .importBackup bak => some (importBackup bak db)
  | .upsertPlayback now dir filePath update =>
    if db.works.Has dir then some (upsertPlayback now dir filePath update db) else none

def system : System Db Empty Empty Empty Command where
  resume _ task _ := task.elim
  event db c := (apply I videoExt db c).map fun db => { shared := db }

/-- What a command may do so that the library stays consistent. -/
def Careful (db : Db) : Command → Prop
  | .importPayload mode _ name commonPath files =>
    PayloadFits I videoExt mode name commonPath files db
  | .importStream mode _ _ name commonPath files =>
    StreamFits I videoExt mode name commonPath files db
  | .clearSources => db.playback.rows = []
  | .importBackup bak => Fits bak db
  | _ => True

variable {I videoExt}

/-- A command keeps the library consistent exactly where it is careful. -/
theorem consistent_apply_iff {db db' : Db} (h : Consistent db) {c : Command}
    (hdb' : apply I videoExt db c = some db') : Careful I videoExt db c ↔ Consistent db' := by
  cases c with
  | importPayload mode importedAt name commonPath files =>
    obtain rfl := Option.some.inj hdb'
    exact (consistent_importPayload_iff h importedAt commonPath files).symm
  | importStream mode batchSize importedAt name commonPath files =>
    obtain rfl := Option.some.inj hdb'
    exact (consistent_importStream_iff h batchSize importedAt commonPath files).symm
  | deleteSource name =>
    obtain rfl := Option.some.inj hdb'
    exact iff_of_true trivial (consistent_deleteSource h name)
  | mergeSources now fromNames toName =>
    obtain rfl := Option.some.inj hdb'
    exact iff_of_true trivial (consistent_mergeSources I h now fromNames toName)
  | mergeDuplicateWorks keepDir mergeDirs =>
    obtain rfl := Option.some.inj hdb'
    refine iff_of_true trivial ?_
    cases hmerged : mergeDuplicateWorks I keepDir mergeDirs db with
    | none => exact h
    | some db' => exact consistent_mergeDuplicateWorks h hmerged
  | deleteWorks dirs =>
    obtain rfl := Option.some.inj hdb'
    exact iff_of_true trivial (consistent_deleteWorks I h dirs)
  | deleteCategory cat sub =>
    obtain rfl := Option.some.inj hdb'
    refine iff_of_true trivial ?_
    cases hdeleted : deleteCategory I cat sub db with
    | none => exact h
    | some db' => exact consistent_deleteCategory h hdeleted
  | clearSources =>
    obtain rfl := Option.some.inj hdb'
    exact consistent_clearSources_iff.symm
  | importBackup bak =>
    obtain rfl := Option.some.inj hdb'
    exact (consistent_importBackup_iff h).symm
  | upsertPlayback now dir filePath update =>
    unfold apply at hdb'
    dsimp only at hdb'
    split_ifs at hdb' with hdir
    obtain rfl := Option.some.inj hdb'
    exact iff_of_true trivial (consistent_upsertPlayback h hdir now filePath update)

/-- A step is a command. -/
theorem step_command {p q : Pool Db Empty Empty} {a : Action Empty Command}
    (h : (system I videoExt).step p a = some q) :
    ∃ c, a = .event c ∧ apply I videoExt p.shared c = some q.shared := by
  obtain ⟨_, _, task, _, _⟩ | ⟨c, r, rfl, hr, rfl⟩ := System.step_cases h
  · exact task.elim
  · obtain ⟨db, hdb, rfl⟩ := Option.map_eq_some_iff.mp hr
    exact ⟨c, rfl, hdb⟩

end Commands

theorem consistent_empty : Consistent ∅ where
  files _ hf := absurd hf List.not_mem_nil
  playback _ hp := absurd hp List.not_mem_nil
  sources _ hw := absurd hw List.not_mem_nil
  stats _ hw := absurd hw List.not_mem_nil

/-- A run keeps the library consistent in all its states exactly where all its commands are
careful. -/
theorem consistent_iff_careful (I : Inference) (videoExt : List Text)
    (as : List (Action Empty Command)) :
    (system I videoExt).Throughout (fun p => Consistent p.shared) { shared := ∅ } as ↔
      (system I videoExt).Along
        (fun p a => ∀ c, a = .event c → Careful I videoExt p.shared c) { shared := ∅ } as := by
  apply System.throughout_iff_along (I := fun _ => True)
  · exact fun _ _ _ _ _ => trivial
  · intro p a q _ hp hstep
    obtain ⟨c, rfl, hc⟩ := step_command hstep
    rw [← consistent_apply_iff hp hc]
    exact ⟨fun h => h c rfl, fun h c' hc' => Action.event.inj hc' ▸ h⟩
  · trivial
  · exact consistent_empty

/-! ### A repeated path -/

/-- What the names tell of the work `A {tmdb-1}` and its file `a.mkv`. -/
def plain : Inference where
  heading _ :=
    { title := "A".toList
      normTitle := "a".toList
      tmdbId := some 1
      pinyin := "a".toList
      pinyinFirst := "a".toList }
  technical _ := ([], [])
  detailed _ := []
  lower := List.map Char.toLower
  strip s := s
  genres s := s

/-- A file of the payload. -/
def someEntry : Entry where
  path := "A {tmdb-1}/a.mkv".toList
  fileName := "a.mkv".toList
  etag := "0123456789abcdef0123456789abcdef".toList
  size := 7
  s3KeyFlag := []

/-- A payload that has a file twice: the work is written with two files, and one row is there. -/
theorem repeated_path_inconsistent :
    ¬(system plain [".mkv".toList]).Throughout (fun p => Consistent p.shared) { shared := ∅ }
      [.event (.importPayload .merge [] "s".toList [] [someEntry, someEntry])] := by
  intro h
  have hc := (h.2 _ rfl : Consistent _)
  have hwrong : ∃ w ∈ (importPayload plain [".mkv".toList] .merge [] "s".toList []
      [someEntry, someEntry] ∅).1.works.rows, w.fileCount ≠ countOf (filesIn
        (importPayload plain [".mkv".toList] .merge [] "s".toList []
          [someEntry, someEntry] ∅).1.files w.dir) := by
    decide +kernel
  obtain ⟨w, hw, hne⟩ := hwrong
  exact hne (hc.stats w hw).fileCount

end AllInOneBackup.Cloud123.Library
