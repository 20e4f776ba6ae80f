import AllInOneBackup.Cloud123.Library.Imported

/-! The rounds of the two imports. `import_payload` takes its works one by one; `import_stream` takes
rows, which wait in a batch, and writes the works after the last of them. -/

namespace AllInOneBackup.Cloud123.Library

open Data Data.Keyed

/-! ### `import_payload` -/

section Payload

variable (I : Inference) (videoExt : List Text)

/-- The files of a payload, each under its work and with its name. -/
def splitFiles (commonPath : Text) (files : List Entry) : List (Text × Entry × Text) :=
  files.filterMap fun f =>
    (splitWork f.path (fallbackRoot commonPath)).map fun split => (split.1, f, split.2)

/-- A work of a payload: its rows, and the video count, for which the ending of the name decides. -/
def payloadWork (commonPath : Text) (files : List Entry) (dir : Text) : NewWork :=
  let group := Dict.valuesOf dir (splitFiles commonPath files)
  ⟨dir, group.map fun f => payloadRow I videoExt dir f.1,
    group.countP fun f => I.lower (splitext f.2) ∈ videoExt⟩

/-- The works that are not there. -/
def newWorks (old : Db) (works : List (Text × WorkInfo)) : List NewWork :=
  (works.filter fun g => ¬old.works.Has g.1).map fun g =>
    ⟨g.1, g.2.files.map (payloadRow I videoExt g.1), g.2.videoCount⟩

variable {I videoExt} {old : Db} {name : Text} {mode : Mode} {new : List NewWork}
  {work : Text × WorkInfo} {works : List (Text × WorkInfo)} {st : Db × Tally}

theorem newWorks_cons : newWorks I videoExt old (work :: works) =
    newWorks I videoExt old [work] ++ newWorks I videoExt old works := by
  unfold newWorks
  rw [← List.map_append, ← List.filter_append]
  rfl

theorem dir_of_mem_newWorks {g : NewWork} (h : g ∈ newWorks I videoExt old [work]) :
    g.dir = work.1 := by
  obtain ⟨g', hg', rfl⟩ := List.mem_map.mp h
  rw [List.mem_singleton.mp (List.mem_filter.mp hg').1]

theorem dir_payloadRow (dir : Text) (f : Entry) : (payloadRow I videoExt dir f).dir = dir := rfl

theorem sum_payloadRow (dir : Text) (files : List Entry) :
    bytesOf (files.map (payloadRow I videoExt dir)) = (files.map (·.size)).sum := by
  unfold bytesOf
  rw [List.map_map]
  rfl

/-- A round: files go to a work that is there, or a work is added. -/
theorem imported_importWork (h : Imported old name new [] st.1) (hnew : ∀ g ∈ new, g.dir ≠ work.1)
    (hcount : work.2.count = work.2.files.length)
    (hsize : work.2.totalSize = (work.2.files.map (·.size)).sum) :
    Imported old name (new ++ newWorks I videoExt old [work]) []
      (importWork I videoExt mode name st work).1 := by
  have hrows : ∀ files : List Entry, ∀ f ∈ files.map (payloadRow I videoExt work.1),
      f.dir = work.1 := by
    intro files f hf
    obtain ⟨f', -, rfl⟩ := List.mem_map.mp hf
    rfl
  unfold importWork
  dsimp only
  by_cases hhas : st.1.works.Has work.1
  · have hold : old.works.Has work.1 := by
      rcases (h.has work.1).mp hhas with hold | ⟨g, hg, heq⟩
      · exact hold
      · exact absurd heq (hnew g hg)
    have hnone : newWorks I videoExt old [work] = [] := by simp [newWorks, hold]
    rw [if_pos hhas, hnone, List.append_nil]
    split_ifs
    · exact h
    · exact (h.insert hold (hrows _)).recompute hold
    · exact h
  · have hold : ¬old.works.Has work.1 := fun hold => hhas ((h.has work.1).mpr (.inl hold))
    have hone : newWorks I videoExt old [work] =
        [⟨work.1, work.2.files.map (payloadRow I videoExt work.1), work.2.videoCount⟩] := by
      simp [newWorks, hold]
    rw [if_neg hhas, hone]
    refine h.add (w := newWork I work.1 work.2.count work.2.videoCount work.2.totalSize
      work.2.resolution work.2.edition _ name) hhas (hrows _) ?_ ?_ rfl rfl
    · exact hcount.trans (by rw [countOf, List.length_map])
    · exact hsize.trans (sum_payloadRow work.1 work.2.files).symm

theorem imported_foldl (h : Imported old name new [] st.1)
    (hnew : ∀ g ∈ new, ∀ work ∈ works, g.dir ≠ work.1) (hnodup : (works.map Prod.fst).Nodup)
    (hcount : ∀ work ∈ works, work.2.count = work.2.files.length)
    (hsize : ∀ work ∈ works, work.2.totalSize = (work.2.files.map (·.size)).sum) :
    Imported old name (new ++ newWorks I videoExt old works) []
      (works.foldl (importWork I videoExt mode name) st).1 := by
  induction works generalizing new st with
  | nil =>
    rw [show newWorks I videoExt old [] = [] from rfl, List.append_nil]
    exact h
  | cons work works ih =>
    obtain ⟨hwork, hnodup⟩ := List.nodup_cons.mp hnodup
    rw [newWorks_cons, ← List.append_assoc]
    have hround : Imported old name (new ++ newWorks I videoExt old [work]) []
        (importWork I videoExt mode name st work).1 := imported_importWork h
      (fun g hg => hnew g hg work List.mem_cons_self) (hcount work List.mem_cons_self)
      (hsize work List.mem_cons_self)
    refine ih hround ?_ hnodup (fun w hw => hcount w (List.mem_cons_of_mem work hw))
      fun w hw => hsize w (List.mem_cons_of_mem work hw)
    intro g hg w hw
    rcases List.mem_append.mp hg with hg | hg
    · exact hnew g hg w (List.mem_cons_of_mem work hw)
    · rw [dir_of_mem_newWorks hg]
      exact fun heq => hwork (heq ▸ List.mem_map_of_mem hw)

theorem mem_aggregateWorks {commonPath : Text} {files : List Entry}
    (h : work ∈ aggregateWorks I videoExt commonPath files) :
    work.1 ∈ (splitFiles commonPath files).map Prod.fst ∧
      work.2.files = (Dict.valuesOf work.1 (splitFiles commonPath files)).map Prod.fst ∧
      work.2.count = work.2.files.length ∧
      work.2.totalSize = (work.2.files.map (·.size)).sum ∧
      work.2.videoCount = (payloadWork I videoExt commonPath files work.1).videoCount := by
  obtain ⟨g, hg, rfl⟩ := List.mem_map.mp h
  obtain ⟨hkey, hvalues⟩ := Dict.mem_collect.mp hg
  refine ⟨hkey, congrArg _ hvalues, ?_, ?_, ?_⟩
  · exact congrArg _ (List.length_map _).symm
  · rw [List.map_map]
    rfl
  · dsimp only [payloadWork]
    rw [hvalues]
    rfl

theorem keys_aggregateWorks {commonPath : Text} {files : List Entry} :
    (aggregateWorks I videoExt commonPath files).map Prod.fst =
      (Dict.collect (splitFiles commonPath files)).map Prod.fst := by
  unfold aggregateWorks
  rw [List.map_map]
  rfl

/-- The new works of a payload. -/
theorem mem_newWorks_iff {commonPath : Text} {files : List Entry} {g : NewWork} :
    g ∈ newWorks I videoExt old (aggregateWorks I videoExt commonPath files) ↔
      ∃ dir ∈ (splitFiles commonPath files).map Prod.fst, ¬old.works.Has dir ∧
        payloadWork I videoExt commonPath files dir = g := by
  have hwork : ∀ w ∈ aggregateWorks I videoExt commonPath files,
      (⟨w.1, w.2.files.map (payloadRow I videoExt w.1), w.2.videoCount⟩ : NewWork) =
        payloadWork I videoExt commonPath files w.1 := by
    intro w hw
    obtain ⟨-, hfiles, -, -, hvideos⟩ := mem_aggregateWorks hw
    rw [hfiles, hvideos, List.map_map]
    rfl
  constructor
  · intro hg
    obtain ⟨w, hw, rfl⟩ := List.mem_map.mp hg
    obtain ⟨hw, hnew⟩ := List.mem_filter.mp hw
    exact ⟨w.1, (mem_aggregateWorks hw).1, of_decide_eq_true hnew, (hwork w hw).symm⟩
  · rintro ⟨dir, hdir, hnew, rfl⟩
    have hgroup : (dir, Dict.valuesOf dir (splitFiles commonPath files)) ∈
        Dict.collect (splitFiles commonPath files) := Dict.mem_collect.mpr ⟨hdir, rfl⟩
    have hkey : dir ∈ (aggregateWorks I videoExt commonPath files).map Prod.fst := by
      rw [keys_aggregateWorks]
      exact List.mem_map.mpr ⟨_, hgroup, rfl⟩
    obtain ⟨w, hw, rfl⟩ := List.mem_map.mp hkey
    rw [← hwork w hw]
    exact List.mem_map.mpr ⟨w, List.mem_filter.mpr ⟨hw, decide_eq_true hnew⟩, rfl⟩

/-- All rounds of `import_payload`. -/
theorem imported_aggregateWorks (old : Db) (name commonPath : Text) (files : List Entry)
    (t : Tally) :
    Imported old name (newWorks I videoExt old (aggregateWorks I videoExt commonPath files)) []
      ((aggregateWorks I videoExt commonPath files).foldl (importWork I videoExt mode name)
        (old, t)).1 := by
  have hstart : Imported old name [] [] ((old, t) : Db × Tally).1 := imported_start old name
  apply imported_foldl hstart (List.forall_mem_nil _)
  · rw [keys_aggregateWorks]
    exact Dict.nodup_collect _
  · exact fun work hwork => (mem_aggregateWorks hwork).2.2.1
  · exact fun work hwork => (mem_aggregateWorks hwork).2.2.2.1

end Payload

/-! ### `import_stream` -/

section Stream

variable {I : Inference} {mode : Mode} {batchSize : ℤ} {old : Db} {rows emitted : List WorkFile}
  {st : StreamState} {f : WorkFile}

/-- What is gathered of some rows of a work. -/
def statOf (rows : List WorkFile) : Stat where
  count := countOf rows
  videoCount := videosOf rows
  totalSize := bytesOf rows
  names := (rows.filter (·.isVideo)).map (·.fileName)

theorem statOf_append (rows : List WorkFile) (f : WorkFile) :
    statOf (rows ++ [f]) =
      { count := (statOf rows).count + 1
        videoCount := (statOf rows).videoCount + if f.isVideo then 1 else 0
        totalSize := (statOf rows).totalSize + f.size
        names :=
          if f.isVideo then (statOf rows).names ++ [f.fileName] else (statOf rows).names } := by
  unfold statOf
  rw [Stat.mk.injEq]
  refine ⟨?_, ?_, ?_, ?_⟩
  · rw [countOf, List.length_append]
    rfl
  · rw [videosOf, List.countP_append, List.countP_singleton]
    split_ifs
    · rfl
    · rfl
  · rw [bytesOf, List.map_append, List.sum_append]
    simp [bytesOf]
  · rw [List.filter_append, List.map_append]
    split_ifs with h
    · simp [h]
    · simp [h]

/-- The rows of a work. -/
def rowsOf (rows : List WorkFile) (dir : Text) : List WorkFile := rows.filter (·.dir = dir)

theorem rowsOf_append (rows : List WorkFile) (f : WorkFile) (dir : Text) :
    rowsOf (rows ++ [f]) dir = if f.dir = dir then rowsOf rows dir ++ [f] else rowsOf rows dir := by
  unfold rowsOf
  rw [List.filter_append]
  split_ifs with h
  · simp [h]
  · simp [h]

theorem rowsOf_eq_nil {dir : Text} : rowsOf rows dir = [] ↔ dir ∉ rows.map (·.dir) := by
  unfold rowsOf
  rw [List.filter_eq_nil_iff]
  simp only [decide_eq_true_eq, List.mem_map, not_exists, not_and]

/-- The variables of the loop after some rows: the table with the batch is the old one with the rows
that are `emitted`, all of those of a new work. -/
structure Streaming (old : Db) (rows emitted : List WorkFile) (st : StreamState) : Prop where
  files : st.files.insertAll st.batch = old.files.insertAll emitted
  newRows : ∀ dir, ¬old.works.Has dir → rowsOf emitted dir = rowsOf rows dir
  stats : ∀ dir, Dict.get? dir st.stats =
    if old.works.Has dir ∨ rowsOf rows dir = [] then none else some (statOf (rowsOf rows dir))
  nodup : (st.stats.map Prod.fst).Nodup
  there : ∀ f ∈ emitted, old.works.Has f.dir → f.dir ∈ st.merged.map Prod.fst
  merged : ∀ dir ∈ st.merged.map Prod.fst, old.works.Has dir

/-- The verdict on a work is that of the table. -/
def Verdicts (old : Db) (rows : List WorkFile) (st : StreamState) : Prop :=
  ∀ dir, Dict.get? dir st.verdicts =
    if rowsOf rows dir = [] then none else some (decide (old.works.Has dir))

theorem streaming_start (old : Db) : Streaming old [] [] { files := old.files } where
  files := rfl
  newRows _ _ := rfl
  stats _ := (if_pos (.inr rfl)).symm
  nodup := List.nodup_nil
  there := List.forall_mem_nil _
  merged := List.forall_mem_nil _

theorem Streaming.flush (h : Streaming old rows emitted st) : Streaming old rows emitted st.flush :=
  ⟨h.files, h.newRows, h.stats, h.nodup, h.there, h.merged⟩

theorem Streaming.flushAdded (h : Streaming old rows emitted st) :
    Streaming old rows emitted st.flushAdded :=
  ⟨h.files, h.newRows, h.stats, h.nodup, h.there, h.merged⟩

theorem insertAll_append {files : Table WorkFile.key} :
    files.insertAll (rows ++ [f]) = (files.insertAll rows).insertOrReplace f := by
  unfold Table.insertAll
  rw [List.foldl_append]
  rfl

/-- A row of a work that is there and takes no more files. -/
theorem Streaming.skip (h : Streaming old rows emitted st) (hold : old.works.Has f.dir) :
    Streaming old (rows ++ [f]) emitted st := by
  have hsame : ∀ dir, ¬old.works.Has dir → rowsOf (rows ++ [f]) dir = rowsOf rows dir := by
    intro dir hdir
    have hne : ¬f.dir = dir := fun heq => hdir (heq ▸ hold)
    rw [rowsOf_append, if_neg hne]
  refine ⟨h.files, fun dir hdir => ?_, fun dir => ?_, h.nodup, h.there, h.merged⟩
  · rw [hsame dir hdir]
    exact h.newRows dir hdir
  · rw [h.stats dir]
    by_cases hdir : old.works.Has dir
    · rw [if_pos (.inl hdir), if_pos (.inl hdir)]
    · rw [hsame dir hdir]

/-- A row goes to a work that is there. -/
theorem Streaming.merge (h : Streaming old rows emitted st) (hold : old.works.Has f.dir)
    (paths : List (Text × List Text)) (g : ℤ × ℤ → ℤ × ℤ) :
    Streaming old (rows ++ [f]) (emitted ++ [f])
      { st with
        existingPaths := paths
        merged := Dict.modify f.dir (0, 0) g st.merged
        batch := st.batch ++ [f] } where
  files := by
    change st.files.insertAll (st.batch ++ [f]) = _
    rw [insertAll_append, insertAll_append, h.files]
  newRows dir hdir := by
    have hne : ¬f.dir = dir := fun heq => hdir (heq ▸ hold)
    rw [rowsOf_append, rowsOf_append, if_neg hne, if_neg hne]
    exact h.newRows dir hdir
  stats := (h.skip hold).stats
  nodup := h.nodup
  there f' hf' hold' := by
    rw [Dict.mem_keys_modify]
    rcases List.mem_append.mp hf' with hf' | hf'
    · exact .inl (h.there f' hf' hold')
    · exact .inr (by rw [List.mem_singleton.mp hf'])
  merged dir hdir := by
    rcases Dict.mem_keys_modify.mp hdir with hdir | rfl
    · exact h.merged dir hdir
    · exact hold

/-- A row goes to a new work. -/
theorem Streaming.add (h : Streaming old rows emitted st) (hnew : ¬old.works.Has f.dir) :
    Streaming old (rows ++ [f]) (emitted ++ [f])
      { st with
        batch := st.batch ++ [f]
        stats := Dict.modify f.dir {}
          (fun g =>
            { count := g.count + 1
              videoCount := g.videoCount + if f.isVideo then 1 else 0
              totalSize := g.totalSize + f.size
              names := if f.isVideo then g.names ++ [f.fileName] else g.names })
          st.stats } where
  files := by
    change st.files.insertAll (st.batch ++ [f]) = _
    rw [insertAll_append, insertAll_append, h.files]
  newRows dir hdir := by
    rw [rowsOf_append, rowsOf_append, h.newRows dir hdir]
  stats dir := by
    rw [rowsOf_append]
    by_cases heq : f.dir = dir
    · subst heq
      have hlast : rowsOf rows f.dir ++ [f] ≠ [] := List.append_ne_nil_of_right_ne_nil _ (by simp)
      rw [Dict.get?_modify_self, if_pos rfl, if_neg (not_or.mpr ⟨hnew, hlast⟩), statOf_append]
      have hgathered : (Dict.get? f.dir st.stats).getD {} = statOf (rowsOf rows f.dir) := by
        rw [h.stats f.dir]
        split_ifs with hnone
        · rw [hnone.resolve_left hnew]
          rfl
        · rfl
      rw [hgathered]
    · rw [Dict.get?_modify_of_ne fun h => heq h.symm, if_neg heq]
      exact h.stats dir
  nodup := Dict.nodup_modify h.nodup
  there f' hf' hold' := by
    rcases List.mem_append.mp hf' with hf' | hf'
    · exact h.there f' hf' hold'
    · rw [List.mem_singleton.mp hf'] at hold'
      exact absurd hold' hnew
  merged := h.merged

/-- The first row of a work asks whether it is there. -/
theorem look_eq (hv : Verdicts old rows st) :
    ∃ verdicts paths large, st.look mode old.works f.dir =
      ({ st with verdicts, existingPaths := paths, largeRoots := large },
        decide (old.works.Has f.dir)) ∧
      ∀ dir, Dict.get? dir verdicts =
        if rowsOf (rows ++ [f]) dir = [] then none else some (decide (old.works.Has dir)) := by
  unfold StreamState.look
  cases hseen : Dict.get? f.dir st.verdicts with
  | some verdict =>
    obtain ⟨hrows, heq⟩ : rowsOf rows f.dir ≠ [] ∧ decide (old.works.Has f.dir) = verdict := by
      have hdir := (hv f.dir).symm.trans hseen
      by_cases hnil : rowsOf rows f.dir = []
      · rw [if_pos hnil] at hdir
        exact absurd hdir (by simp)
      · rw [if_neg hnil] at hdir
        exact ⟨hnil, Option.some.inj hdir⟩
    refine ⟨st.verdicts, st.existingPaths, st.largeRoots, by rw [heq], fun dir => ?_⟩
    rw [hv dir, rowsOf_append]
    by_cases hdir : f.dir = dir
    · rw [if_pos hdir, if_neg (hdir ▸ hrows), if_neg (by simp)]
    · rw [if_neg hdir]
  | none =>
    have hverdicts : ∀ dir,
        Dict.get? dir (st.verdicts ++ [(f.dir, decide (old.works.Has f.dir))]) =
          if rowsOf (rows ++ [f]) dir = [] then none else some (decide (old.works.Has dir)) := by
      intro dir
      rw [Dict.get?_append, rowsOf_append]
      by_cases hdir : f.dir = dir
      · subst hdir
        rw [hseen, if_pos rfl, if_pos rfl, if_neg (by simp)]
        rfl
      · rw [if_neg hdir, if_neg hdir, Option.or_none]
        exact hv dir
    dsimp only
    split_ifs
    · exact ⟨_, _, _, rfl, hverdicts⟩
    · exact ⟨_, _, _, rfl, hverdicts⟩
    · exact ⟨_, _, _, rfl, hverdicts⟩

/-- A round: what is emitted is the row, or nothing. -/
theorem streaming_row (h : Streaming old rows emitted st) (hv : Verdicts old rows st) :
    Verdicts old (rows ++ [f]) (st.row mode old.works batchSize f) ∧
      ∃ emitted', Streaming old (rows ++ [f]) emitted' (st.row mode old.works batchSize f) := by
  obtain ⟨verdicts, paths, large, hlook, hverdicts⟩ := @look_eq mode _ _ _ f hv
  have hseen : Streaming old rows emitted
      { st with verdicts, existingPaths := paths, largeRoots := large } :=
    ⟨h.files, h.newRows, h.stats, h.nodup, h.there, h.merged⟩
  unfold StreamState.row
  dsimp only
  rw [hlook]
  dsimp only
  by_cases hold : old.works.Has f.dir
  · rw [if_pos (decide_eq_true hold)]
    split_ifs
    · exact ⟨hverdicts, emitted, hseen.skip hold⟩
    · exact ⟨hverdicts, emitted, hseen.skip hold⟩
    · exact ⟨hverdicts, _, (hseen.merge hold _ _).flush⟩
    · exact ⟨hverdicts, _, hseen.merge hold _ _⟩
  · rw [if_neg (by simpa using hold)]
    by_cases hfull : batchSize ≤ (st.batch ++ [f]).length
    · rw [if_pos hfull]
      exact ⟨hverdicts, _, (hseen.add hold).flushAdded⟩
    · rw [if_neg hfull]
      exact ⟨hverdicts, _, hseen.add hold⟩

/-- All rounds of `import_stream`. -/
theorem streaming_foldl (mode : Mode) (batchSize : ℤ) (old : Db) (rows : List WorkFile) :
    Verdicts old rows
        (rows.foldl (StreamState.row mode old.works batchSize) { files := old.files }) ∧
      ∃ emitted, Streaming old rows emitted
        (rows.foldl (StreamState.row mode old.works batchSize) { files := old.files }) := by
  induction rows using List.reverseRecOn with
  | nil => exact ⟨fun dir => (if_pos rfl).symm, [], streaming_start old⟩
  | append_singleton rows f ih =>
    obtain ⟨hv, emitted, h⟩ := ih
    rw [List.foldl_append]
    exact streaming_row h hv

/-- The new works of a stream. -/
def streamWorks (rows : List WorkFile) (stats : List (Text × Stat)) : List NewWork :=
  stats.map fun g => ⟨g.1, rowsOf rows g.1, g.2.videoCount⟩

theorem Streaming.mem_stats (h : Streaming old rows emitted st) {g : Text × Stat} :
    g ∈ st.stats ↔
      ¬old.works.Has g.1 ∧ g.1 ∈ rows.map (·.dir) ∧ g.2 = statOf (rowsOf rows g.1) := by
  obtain ⟨dir, stat⟩ := g
  rw [Dict.mem_iff_get? h.nodup, h.stats dir]
  split_ifs with hnone
  · rw [rowsOf_eq_nil] at hnone
    simp only [false_iff, not_and]
    exact fun hnew hmem => absurd hmem (hnone.resolve_left hnew)
  · obtain ⟨hnew, hmem⟩ := not_or.mp hnone
    rw [rowsOf_eq_nil, not_not] at hmem
    rw [Option.some.injEq]
    exact ⟨fun heq => ⟨hnew, hmem, heq.symm⟩, fun heq => heq.2.2.symm⟩

/-- A work of a stream. -/
def rowsWork (rows : List WorkFile) (dir : Text) : NewWork :=
  ⟨dir, rowsOf rows dir, videosOf (rowsOf rows dir)⟩

theorem Streaming.mem_streamWorks_iff (h : Streaming old rows emitted st) {g : NewWork} :
    g ∈ streamWorks rows st.stats ↔
      ∃ dir ∈ rows.map (·.dir), ¬old.works.Has dir ∧ rowsWork rows dir = g := by
  unfold streamWorks
  rw [List.mem_map]
  constructor
  · rintro ⟨stat, hstat, rfl⟩
    obtain ⟨hnew, hdir, heq⟩ := h.mem_stats.mp hstat
    refine ⟨stat.1, hdir, hnew, ?_⟩
    rw [heq]
    rfl
  · rintro ⟨dir, hdir, hnew, rfl⟩
    exact ⟨(dir, statOf (rowsOf rows dir)), h.mem_stats.mpr ⟨hnew, hdir, rfl⟩, rfl⟩

theorem keys_streamWork (stats : List (Text × Stat)) (name : Text) :
    (stats.map (streamWork I name)).map Work.dir = stats.map Prod.fst := by
  rw [List.map_map]
  rfl

/-- The works are all new. -/
theorem Streaming.mem_works (h : Streaming old rows emitted st) {name : Text} {w : Work} :
    w ∈ old.works.insertAll (st.stats.map (streamWork I name)) ↔
      w ∈ old.works ∨ ∃ g ∈ st.stats, streamWork I name g = w := by
  change w ∈ (old.works.insertAll (st.stats.map (streamWork I name))).rows ↔ _
  rw [Table.rows_insertAll, foldl_replaceIn_of_nodup, List.mem_append, List.mem_map]
  · rfl
  · rw [List.map_append, keys_streamWork, List.nodup_append]
    refine ⟨old.works.nodup, h.nodup, fun dir hdir dir' hdir' heq => ?_⟩
    obtain ⟨g, hg, rfl⟩ := List.mem_map.mp hdir'
    exact (h.mem_stats.mp hg).1 (heq ▸ hdir)

theorem has_works {stats : List (Text × Stat)} {name dir : Text} :
    (old.works.insertAll (stats.map (streamWork I name))).Has dir ↔
      old.works.Has dir ∨ ∃ g ∈ streamWorks rows stats, g.dir = dir := by
  rw [Table.has_insertAll, keys_streamWork]
  refine or_congr Iff.rfl ?_
  rw [← List.mem_map (f := NewWork.dir), streamWorks, List.map_map]
  rfl

/-- The works are written after the last batch. -/
theorem Streaming.imported (h : Streaming old rows emitted st) (hbatch : st.batch = [])
    (name : Text) :
    Imported old name (streamWorks rows st.stats) (st.merged.map Prod.fst)
      { old with
        files := st.files
        works := old.works.insertAll (st.stats.map (streamWork I name)) } := by
  have hfiles : st.files = old.files.insertAll emitted := by
    rw [← h.files, hbatch]
    rfl
  refine
    { sources := rfl
      playback := rfl
      has := fun dir => has_works
      fresh := ?_
      files := fun hold f hf => ?_
      newFiles := fun hold => ?_
      newWorks := ?_
      stats := fun hstats w hw hhas hpending => ?_
      works := fun w hw => ?_ }
  · intro g' hg'
    obtain ⟨g, hg, rfl⟩ := List.mem_map.mp hg'
    exact (h.mem_stats.mp hg).1
  · change f ∈ st.files at hf
    rw [hfiles] at hf
    rw [@has_works _ _ rows]
    rcases Table.mem_of_mem_insertAll hf with hf | hf
    · exact .inl (hold f hf)
    · by_cases hhas : old.works.Has f.dir
      · exact .inl hhas
      · have hmem : f ∈ rowsOf rows f.dir := by
          rw [← h.newRows f.dir hhas]
          exact List.mem_filter.mpr ⟨hf, by simp⟩
        have hdir : f.dir ∈ rows.map (·.dir) := List.mem_map_of_mem (List.mem_filter.mp hmem).1
        have hg : (f.dir, statOf (rowsOf rows f.dir)) ∈ st.stats :=
          h.mem_stats.mpr ⟨hhas, hdir, rfl⟩
        exact .inr ⟨_, List.mem_map_of_mem hg, rfl⟩
  · intro g' hg'
    obtain ⟨g, hg, rfl⟩ := List.mem_map.mp hg'
    obtain ⟨hnew, -, -⟩ := h.mem_stats.mp hg
    have hnone : filesIn old.files g.1 = [] := by
      rw [List.eq_nil_iff_forall_not_mem]
      intro f hf
      obtain ⟨hmem, heq⟩ := mem_filesIn.mp hf
      exact hnew (heq ▸ hold f hmem)
    have hrows : emitted.filter (·.dir = g.1) = rowsOf rows g.1 := h.newRows g.1 hnew
    change filesIn st.files g.1 = _
    rw [hfiles, filesIn_insertAll, hnone, hrows]
  · intro g' hg' w hw hdir
    obtain ⟨g, hg, rfl⟩ := List.mem_map.mp hg'
    obtain ⟨hnew, -, hstat⟩ := h.mem_stats.mp hg
    rcases h.mem_works.mp hw with hw | ⟨g'', hg'', rfl⟩
    · exact absurd (Table.has_iff.mpr ⟨w, hw, hdir⟩) hnew
    · obtain ⟨-, -, hstat''⟩ := h.mem_stats.mp hg''
      have hdir' : g''.1 = g.1 := hdir
      rw [hdir', ← hstat] at hstat''
      obtain rfl : g'' = g := Prod.ext hdir' hstat''
      exact ⟨congrArg Stat.count hstat, rfl, congrArg Stat.totalSize hstat⟩
  · rcases h.mem_works.mp hw with hw | ⟨g, hg, rfl⟩
    · refine (hstats w hw).congr rfl ?_ rfl rfl rfl
      change filesIn st.files w.dir = _
      rw [hfiles]
      exact filesIn_insertAll_of_ne fun f hf heq => hpending (heq ▸ h.there f hf (heq ▸ hhas))
    · exact absurd hhas (h.mem_stats.mp hg).1
  · rcases h.mem_works.mp hw with hw | ⟨g, -, rfl⟩
    · exact .inr ⟨w, hw, rfl⟩
    · exact .inl rfl

end Stream

end AllInOneBackup.Cloud123.Library
