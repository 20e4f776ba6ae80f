import AllInOneBackup.Cloud123.Library.Manage
import AllInOneBackup.Cloud123.Library.PlayList

/-! The next episode to watch, as the summaries of playback report it, against the play list. -/

namespace AllInOneBackup.Cloud123.Library

open Data Data.Keyed

variable (U : Unicode)

/-! ### Summaries -/

structure Summary where
  recordCount : ℕ := 0
  watchedCount : ℕ := 0
  lastSeason : ℤ := 0
  lastEpisode : ℤ := 0
  lastWatched : Bool := false
  lastPositionSec : ℚ := 0
  lastDurationSec : ℚ := 0
  nextSeason : ℕ := 0
  nextEpisode : ℕ := 0

namespace Summary

/-- The next episode; `(0, 0)` where there is none. -/
def next (s : Summary) : ℕ × ℕ := (s.nextSeason, s.nextEpisode)

def addRecord (r : Playback) (s : Summary) : Summary :=
  { s with
    recordCount := s.recordCount + 1
    watchedCount := if r.watched then s.watchedCount + 1 else s.watchedCount
    lastSeason := r.season
    lastEpisode := r.episode
    lastWatched := r.watched
    lastPositionSec := r.positionSec
    lastDurationSec := r.durationSec }

def withNext (p : ℕ × ℕ) (s : Summary) : Summary := { s with nextSeason := p.1, nextEpisode := p.2 }

end Summary

/-- A season and an episode as the columns of a record hold them. -/
def columns (p : ℕ × ℕ) : ℤ × ℤ := (p.1, p.2)

def Playback.columns (r : Playback) : ℤ × ℤ := (r.season, r.episode)

/-- What a watched record is about; where the columns were cleared the path says it. -/
def watchedPair (r : Playback) : ℤ × ℤ :=
  if r.columns = (0, 0) ∧ r.filePath ≠ [] then
    ((parseSeasonEpisode U r.filePath []).map columns).getD (0, 0)
  else r.columns

/-- The first of the episodes, in their order, that is not watched. -/
def nextUnwatched (watched : List (ℤ × ℤ)) (episodes : List (ℕ × ℕ)) : Option (ℕ × ℕ) :=
  (sortBy toLex episodes.dedup).find? fun p => columns p ∉ watched

def playbackSummaries (dirs : List Text) (db : Db) : List (Text × Summary) :=
  let dirs := dirs.filter (· ≠ [])
  let rows := sortBy (·.updatedAt) (db.playback.rows.filter (·.dir ∈ dirs))
  let files := db.files.rows.filter fun f => f.isVideo ∧ f.dir ∈ dirs
  let out := rows.foldl (fun out r => Dict.modify r.dir {} (·.addRecord r) out) []
  let watchedSets :=
    Dict.collect ((rows.filter (·.watched)).map fun r => (r.dir, watchedPair U r))
  let episodesByDir :=
    Dict.collect (files.filterMap fun f => (parseSeasonEpisode U f.fileName []).map (f.dir, ·))
  episodesByDir.foldl
    (fun out e =>
      let watched := (Dict.get? e.1 watchedSets).getD []
      Dict.modify e.1 {} (fun s => (nextUnwatched watched e.2).elim s (s.withNext ·)) out)
    out

/-- The next episode in the summary of a work. -/
def reportedNext (dirs : List Text) (db : Db) (dir : Text) : ℕ × ℕ :=
  ((Dict.get? dir (playbackSummaries U dirs db)).getD {}).next

/-! ### Play lists of a work -/

/-- The files of a work in the order of their paths; `none` where there is no such work. -/
def listFiles (dir : Text) (db : Db) : Option (List WorkFile) :=
  if db.works.Has dir then some (sortBy (·.path) (filesIn db.files dir)) else none

/-- A call of `upsert_playback`. -/
structure Write where
  now : Text
  dir : Text
  filePath : Text
  update : PlaybackUpdate

def Write.apply (w : Write) (db : Db) : Db := upsertPlayback w.now w.dir w.filePath w.update db

def writeAll (history : List Write) (db : Db) : Db := history.foldl (fun db w => w.apply db) db

/-- A record of a file of the play list, with the season and the episode it has there. -/
def Assigned (play : PlayList) (dir : Text) (w : Write) : Prop :=
  w.dir = dir ∧ ∃ item ∈ play.items, ∃ f ∈ item.files,
    w.filePath = f.path ∧ (w.update.season, w.update.episode) = columns item.pair

/-- There is a watched record of this season and episode. -/
def Watched (db : Db) (dir : Text) (p : ℕ × ℕ) : Prop :=
  ∃ r ∈ db.playback, r.dir = dir ∧ r.watched = true ∧ r.columns = columns p

/-- What is reported is the least pair of the play list that is not watched, and none where all
are watched. -/
def NextIs (play : PlayList) (watched : ℕ × ℕ → Prop) (reported : ℕ × ℕ) : Prop :=
  (∀ p ∈ play.pairs, watched p) ∧ reported = (0, 0) ∨
    reported ∈ play.pairs ∧ ¬watched reported ∧
      ∀ p ∈ play.pairs, ¬watched p → toLex reported ≤ toLex p

/-- The summaries are right after every history of a work. -/
def NextRight (db : Db) (dir : Text) (play : PlayList) : Prop :=
  ∀ history : List Write, (∀ w ∈ history, w.dir = dir → Assigned play dir w) →
    ∀ dirs : List Text, dir ∈ dirs →
      NextIs play (Watched (writeAll history db) dir)
        (reportedNext U dirs (writeAll history db) dir)

/-- The pairs that the summary of a work has: those of the bare names of its videos. -/
def namedPairs (dir : Text) (files : List WorkFile) : List (ℕ × ℕ) :=
  if dir = [] then []
  else (files.filter (·.isVideo)).filterMap fun f => parseSeasonEpisode U f.fileName []

/-! ### What is reported -/

variable {U} {db : Db} {dir : Text} {play : PlayList} {dirs : List Text} {files : List WorkFile}
  {watched : List (ℤ × ℤ)} {episodes : List (ℕ × ℕ)} {p q : ℕ × ℕ} {w : Write}
  {history : List Write} {item : PlayItem}

theorem columns_inj (h : columns p = columns q) : p = q := by
  obtain ⟨hseason, hepisode⟩ := Prod.mk.inj h
  exact Prod.ext (Int.ofNat.inj hseason) (Int.ofNat.inj hepisode)

/-- The next episode is the least that is not watched. -/
theorem least_of_nextUnwatched (h : nextUnwatched watched episodes = some p) :
    p ∈ episodes ∧ columns p ∉ watched ∧
      ∀ q ∈ episodes, columns q ∉ watched → toLex p ≤ toLex q := by
  have hsorted : (sortBy toLex episodes.dedup).Pairwise fun a b => toLex a ≤ toLex b :=
    List.pairwise_insertionSort _ _
  obtain ⟨hp, before, after, hsplit, hbefore⟩ := List.find?_eq_some_iff_append.mp h
  have hmem : ∀ q, q ∈ episodes ↔ q ∈ before ++ p :: after := by
    intro q
    rw [← hsplit, mem_sortBy, List.mem_dedup]
  refine ⟨(hmem p).mpr (by simp), of_decide_eq_true hp, fun q hq hnew => ?_⟩
  rw [hsplit] at hsorted
  have hle := (List.pairwise_cons.mp (List.pairwise_append.mp hsorted).2.1).1
  rcases List.mem_append.mp ((hmem q).mp hq) with hq | hq
  · have hseen := hbefore q hq
    rw [decide_eq_true hnew] at hseen
    exact absurd hseen (by decide)
  · rcases List.mem_cons.mp hq with rfl | hq
    · exact le_refl _
    · exact hle q hq

theorem all_of_nextUnwatched (h : nextUnwatched watched episodes = none) :
    ∀ q ∈ episodes, columns q ∈ watched := by
  intro q hq
  have hfalse := List.find?_eq_none.mp h q (mem_sortBy.mpr (List.mem_dedup.mpr hq))
  exact not_not.mp fun hnot => hfalse (decide_eq_true hnot)

/-- Records do not say what is next. -/
theorem next_foldl_addRecord (dir : Text) (rows : List Playback) (out : List (Text × Summary)) :
    ((Dict.get? dir
        (rows.foldl (fun out r => Dict.modify r.dir {} (·.addRecord r) out) out)).getD {}).next =
      ((Dict.get? dir out).getD {}).next := by
  induction rows generalizing out with
  | nil => rfl
  | cons r rows ih =>
    rw [List.foldl_cons, ih]
    by_cases hdir : dir = r.dir
    · rw [hdir, Dict.get?_modify_self]
      rfl
    · rw [Dict.get?_modify_of_ne hdir]

/-- The watched pairs of a work. -/
def watchedPairs (U : Unicode) (db : Db) (dir : Text) : List (ℤ × ℤ) :=
  (db.playback.rows.filter fun r => r.dir = dir ∧ r.watched = true).map (watchedPair U)

theorem next_elim {next : Option (ℕ × ℕ)} {s : Summary} (hs : s.next = (0, 0)) :
    (next.elim s (s.withNext ·)).next = next.getD (0, 0) := by
  cases next with
  | none => exact hs
  | some p => rfl

/-- The episodes of a work by the bare names of its videos, as they are collected. -/
theorem mem_valuesOf_named (hdir : dir ∈ dirs) (hne : dir ≠ []) :
    p ∈ Dict.valuesOf dir
        ((db.files.rows.filter fun f => f.isVideo ∧ f.dir ∈ dirs.filter (· ≠ [])).filterMap
          fun f => (parseSeasonEpisode U f.fileName []).map (f.dir, ·)) ↔
      p ∈ namedPairs U dir (filesIn db.files dir) := by
  rw [Dict.mem_valuesOf, namedPairs, if_neg hne, List.mem_filterMap, List.mem_filterMap]
  constructor
  · rintro ⟨f, hf, heq⟩
    obtain ⟨q, hq, hpair⟩ := Option.map_eq_some_iff.mp heq
    obtain ⟨rfl, rfl⟩ := Prod.mk.inj hpair
    obtain ⟨hmem, hwanted⟩ := List.mem_filter.mp hf
    have hin : f ∈ filesIn db.files f.dir := List.mem_filter.mpr ⟨hmem, decide_eq_true rfl⟩
    exact ⟨f, List.mem_filter.mpr ⟨hin, (of_decide_eq_true hwanted).1⟩, hq⟩
  · rintro ⟨f, hf, hq⟩
    obtain ⟨hin, hvideo⟩ := List.mem_filter.mp hf
    obtain ⟨hmem, hkey⟩ := List.mem_filter.mp hin
    obtain rfl := of_decide_eq_true hkey
    have hkept : f.dir ∈ dirs.filter (· ≠ []) := List.mem_filter.mpr ⟨hdir, decide_eq_true hne⟩
    exact ⟨f, List.mem_filter.mpr ⟨hmem, decide_eq_true ⟨hvideo, hkept⟩⟩, by rw [hq]; rfl⟩

theorem mem_valuesOf_watched (hdir : dir ∈ dirs) (hne : dir ≠ []) {c : ℤ × ℤ} :
    c ∈ Dict.valuesOf dir
        (((sortBy (·.updatedAt)
            (db.playback.rows.filter fun r => r.dir ∈ dirs.filter (· ≠ []))).filter
          (·.watched)).map fun r => (r.dir, watchedPair U r)) ↔
      c ∈ watchedPairs U db dir := by
  rw [Dict.mem_valuesOf, watchedPairs, List.mem_map, List.mem_map]
  constructor
  · rintro ⟨r, hr, hpair⟩
    obtain ⟨rfl, rfl⟩ := Prod.mk.inj hpair
    obtain ⟨hsorted, hwatched⟩ := List.mem_filter.mp hr
    obtain ⟨hmem, -⟩ := List.mem_filter.mp (mem_sortBy.mp hsorted)
    exact ⟨r, List.mem_filter.mpr ⟨hmem, decide_eq_true ⟨rfl, hwatched⟩⟩, rfl⟩
  · rintro ⟨r, hr, rfl⟩
    obtain ⟨hmem, hwanted⟩ := List.mem_filter.mp hr
    obtain ⟨rfl, hwatched⟩ := of_decide_eq_true hwanted
    have hkept : r.dir ∈ dirs.filter (· ≠ []) := List.mem_filter.mpr ⟨hdir, decide_eq_true hne⟩
    refine ⟨r, List.mem_filter.mpr ⟨mem_sortBy.mpr ?_, hwatched⟩, rfl⟩
    exact List.mem_filter.mpr ⟨hmem, decide_eq_true hkept⟩

/-- What the summary of a work reports, by its named and its watched pairs. -/
theorem reportedNext_spec (U : Unicode) (db : Db) (hdir : dir ∈ dirs) :
    ∃ next : Option (ℕ × ℕ), reportedNext U dirs db dir = next.getD (0, 0) ∧
      (∀ p ∈ next, p ∈ namedPairs U dir (filesIn db.files dir) ∧
        columns p ∉ watchedPairs U db dir ∧
        ∀ q ∈ namedPairs U dir (filesIn db.files dir),
          columns q ∉ watchedPairs U db dir → toLex p ≤ toLex q) ∧
      (next = none → ∀ q ∈ namedPairs U dir (filesIn db.files dir),
        columns q ∈ watchedPairs U db dir) := by
  let kept := dirs.filter (· ≠ [])
  let named := (db.files.rows.filter fun f => f.isVideo ∧ f.dir ∈ kept).filterMap fun f =>
    (parseSeasonEpisode U f.fileName []).map (f.dir, ·)
  let seen := ((sortBy (·.updatedAt) (db.playback.rows.filter (·.dir ∈ kept))).filter
    (·.watched)).map fun r => (r.dir, watchedPair U r)
  let next := nextUnwatched (Dict.valuesOf dir seen) (Dict.valuesOf dir named)
  have hseen : (Dict.get? dir (Dict.collect seen)).getD [] = Dict.valuesOf dir seen := by
    rw [Dict.get?_collect]
    split_ifs with hnil
    · exact hnil.symm
    · rfl
  have hreport : reportedNext U dirs db dir = next.getD (0, 0) := by
    have hstart := next_foldl_addRecord dir
      (sortBy (·.updatedAt) (db.playback.rows.filter (·.dir ∈ kept))) []
    unfold reportedNext playbackSummaries
    dsimp only
    by_cases hmem : dir ∈ named.map Prod.fst
    · have he : (dir, Dict.valuesOf dir named) ∈ Dict.collect named :=
        Dict.mem_collect.mpr ⟨hmem, rfl⟩
      rw [Dict.get?_foldl_modify (Dict.nodup_collect named) he, Option.getD_some]
      dsimp only
      rw [hseen]
      exact next_elim hstart
    · have hnone : Dict.valuesOf dir named = [] := Dict.valuesOf_eq_nil_iff.mpr hmem
      have hkeys : dir ∉ (Dict.collect named).map Prod.fst := by
        rw [Dict.mem_keys_iff, Dict.get?_collect, if_pos hnone]
        exact Bool.false_ne_true
      rw [Dict.get?_foldl_modify_of_not_mem hkeys]
      have hnext : next = none := by
        change nextUnwatched (Dict.valuesOf dir seen) (Dict.valuesOf dir named) = none
        rw [hnone]
        rfl
      rw [hnext]
      exact hstart
  by_cases hne : dir = []
  · have hnone : Dict.valuesOf dir named = [] := by
      refine Dict.valuesOf_eq_nil_iff.mpr fun hmem => ?_
      obtain ⟨e, he, heq⟩ := List.mem_map.mp hmem
      obtain ⟨f, hf, hpair⟩ := List.mem_filterMap.mp he
      obtain ⟨q, -, rfl⟩ := Option.map_eq_some_iff.mp hpair
      have hkept := (of_decide_eq_true (List.mem_filter.mp hf).2).2
      exact of_decide_eq_true (List.mem_filter.mp hkept).2 (heq.trans hne)
    have hnext : next = none := by
      change nextUnwatched (Dict.valuesOf dir seen) (Dict.valuesOf dir named) = none
      rw [hnone]
      rfl
    refine ⟨none, hreport.trans (by rw [hnext]), fun p hp => absurd hp (Option.not_mem_none p),
      fun _ q hq => ?_⟩
    rw [namedPairs, if_pos hne] at hq
    cases hq
  · refine ⟨next, hreport, fun p hp => ?_, fun hnone q hq => ?_⟩
    · obtain ⟨hmem, hnew, hleast⟩ := least_of_nextUnwatched hp
      refine ⟨(mem_valuesOf_named hdir hne).mp hmem,
        fun hseen => hnew ((mem_valuesOf_watched hdir hne).mpr hseen), fun q hq hunseen => ?_⟩
      exact hleast q ((mem_valuesOf_named hdir hne).mpr hq)
        fun hseen => hunseen ((mem_valuesOf_watched hdir hne).mp hseen)
    · exact (mem_valuesOf_watched hdir hne).mp
        (all_of_nextUnwatched hnone q ((mem_valuesOf_named hdir hne).mpr hq))

/-! ### Histories -/

/-- Every record of the work is about an item of the play list. -/
def Recorded (play : PlayList) (dir : Text) (db : Db) : Prop :=
  ∀ r ∈ db.playback, r.dir = dir → ∃ item ∈ play.items, r.columns = columns item.pair

theorem files_writeAll (history : List Write) (db : Db) :
    (writeAll history db).files = db.files := by
  induction history generalizing db with
  | nil => rfl
  | cons w history ih => exact ih (w.apply db)

theorem recorded_apply (hw : w.dir = dir → Assigned play dir w) (h : Recorded play dir db) :
    Recorded play dir (w.apply db) := by
  intro r hr hdir
  rcases Table.mem_insertOrReplace.mp hr with ⟨hold, -⟩ | rfl
  · exact h r hold hdir
  · obtain ⟨-, item, hitem, f, -, -, hpair⟩ := hw hdir
    exact ⟨item, hitem, hpair⟩

theorem recorded_writeAll (hw : ∀ w ∈ history, w.dir = dir → Assigned play dir w)
    (h : Recorded play dir db) : Recorded play dir (writeAll history db) := by
  induction history generalizing db with
  | nil => exact h
  | cons w history ih =>
    exact ih (fun v hv => hw v (List.mem_cons_of_mem _ hv))
      (recorded_apply (hw w List.mem_cons_self) h)

/-- There is no season 0 in a play list, so no column of its records is cleared. -/
theorem season_ne_zero (hplay : orderPlayItems U files = some play) (hitem : item ∈ play.items) :
    item.season ≠ 0 := by
  have hfile := ((items_of_orderPlayItems hplay).1 item hitem item.file).mp List.mem_cons_self
  obtain ⟨q, -, hq⟩ := Option.map_eq_some_iff.mp hfile.2.2
  have hseason : (if q.1 = 0 then 1 else q.1) = item.season := congrArg Prod.fst hq
  rw [← hseason]
  split_ifs with h
  · exact Nat.one_ne_zero
  · exact h

theorem watchedPair_eq (hplay : orderPlayItems U files = some play) {r : Playback}
    (hitem : item ∈ play.items) (hr : r.columns = columns item.pair) :
    watchedPair U r = columns item.pair := by
  have hne : r.columns ≠ (0, 0) := by
    rw [hr]
    intro hzero
    exact season_ne_zero hplay hitem (Int.ofNat.inj (Prod.mk.inj hzero).1)
  rw [watchedPair, if_neg fun hboth => hne hboth.1, hr]

/-- The watched pairs are those with a watched record. -/
theorem mem_watchedPairs (hplay : orderPlayItems U files = some play)
    (h : Recorded play dir db) : columns p ∈ watchedPairs U db dir ↔ Watched db dir p := by
  rw [watchedPairs, List.mem_map]
  constructor
  · rintro ⟨r, hr, heq⟩
    obtain ⟨hmem, hwanted⟩ := List.mem_filter.mp hr
    obtain ⟨hdir, hwatched⟩ := of_decide_eq_true hwanted
    obtain ⟨item, hitem, hcolumns⟩ := h r hmem hdir
    rw [watchedPair_eq hplay hitem hcolumns] at heq
    exact ⟨r, hmem, hdir, hwatched, hcolumns.trans heq⟩
  · rintro ⟨r, hmem, hdir, hwatched, heq⟩
    obtain ⟨item, hitem, hcolumns⟩ := h r hmem hdir
    refine ⟨r, List.mem_filter.mpr ⟨hmem, decide_eq_true ⟨hdir, hwatched⟩⟩, ?_⟩
    rw [watchedPair_eq hplay hitem hcolumns, ← hcolumns, heq]

/-- Where the summary has the pairs of the play list, it reports the next of the play list. -/
theorem nextIs_of_mem_iff (hplay : orderPlayItems U files = some play)
    (h : Recorded play dir db) (hdir : dir ∈ dirs)
    (hsame : ∀ p, p ∈ namedPairs U dir (filesIn db.files dir) ↔ p ∈ play.pairs) :
    NextIs play (Watched db dir) (reportedNext U dirs db dir) := by
  obtain ⟨next, hreport, hsome, hnone⟩ := reportedNext_spec U db hdir
  rw [hreport]
  cases next with
  | none =>
    refine .inl ⟨fun p hp => ?_, rfl⟩
    exact (mem_watchedPairs hplay h).mp (hnone rfl p ((hsame p).mpr hp))
  | some p =>
    obtain ⟨hmem, hnew, hleast⟩ := hsome p rfl
    refine .inr ⟨(hsame p).mp hmem, fun hw => hnew ((mem_watchedPairs hplay h).mpr hw),
      fun q hq hunseen => ?_⟩
    exact hleast q ((hsame q).mpr hq) fun hw => hunseen ((mem_watchedPairs hplay h).mp hw)

/-! ### Histories in which all is watched -/

/-- The record that an item was watched. -/
def watch (dir : Text) (item : PlayItem) : Write :=
  ⟨[], dir, item.file.path, { season := item.season, episode := item.episode, watched := some true }⟩

theorem assigned_watch (hitem : item ∈ play.items) : Assigned play dir (watch dir item) :=
  ⟨rfl, item, hitem, item.file, List.mem_cons_self, rfl, rfl⟩

/-- Files of a work with one path are one file. -/
theorem file_eq_of_path {f g : WorkFile} (hf : f ∈ filesIn db.files dir)
    (hg : g ∈ filesIn db.files dir) (hpath : f.path = g.path) : f = g := by
  obtain ⟨hmem, hdir⟩ := List.mem_filter.mp hf
  obtain ⟨hmem', hdir'⟩ := List.mem_filter.mp hg
  refine Table.eq_of_key_eq hmem hmem' (Prod.ext ?_ hpath)
  exact (of_decide_eq_true hdir).trans (of_decide_eq_true hdir').symm

/-- After some items are watched these are what is watched. -/
theorem watched_writeAll_watch (hplay : orderPlayItems U files = some play)
    (hfiles : ∀ f, f ∈ files ↔ f ∈ filesIn db.files dir)
    (hnew : ∀ r ∈ db.playback, r.dir ≠ dir) (items : List PlayItem)
    (hitems : ∀ item ∈ items, item ∈ play.items) :
    (∀ r ∈ (writeAll (items.map (watch dir)) db).playback, r.dir = dir →
      r.watched = true ∧ ∃ item ∈ items, r.filePath = item.file.path ∧
        r.columns = columns item.pair) ∧
    ∀ item ∈ items, Watched (writeAll (items.map (watch dir)) db) dir item.pair := by
  induction items using List.reverseRecOn with
  | nil => exact ⟨fun r hr hdir => absurd hdir (hnew r hr), fun item hitem => by cases hitem⟩
  | append_singleton items item ih =>
    obtain ⟨hrows, hwatched⟩ := ih fun x hx => hitems x (List.mem_append_left _ hx)
    have hsteps : writeAll ((items ++ [item]).map (watch dir)) db =
        (watch dir item).apply (writeAll (items.map (watch dir)) db) := by
      rw [List.map_append, writeAll, List.foldl_append]
      rfl
    rw [hsteps]
    have hlast : item ∈ play.items := hitems item (by simp)
    constructor
    · intro r hr hdir
      rcases Table.mem_insertOrReplace.mp hr with ⟨hold, -⟩ | rfl
      · obtain ⟨htrue, x, hx, hpath, hcolumns⟩ := hrows r hold hdir
        exact ⟨htrue, x, List.mem_append_left _ hx, hpath, hcolumns⟩
      · exact ⟨rfl, item, by simp, rfl, rfl⟩
    · have hitem : Watched ((watch dir item).apply (writeAll (items.map (watch dir)) db)) dir
          item.pair := ⟨_, Table.mem_insertOrReplace.mpr (.inr rfl), rfl, rfl, rfl⟩
      intro x hx
      rcases List.mem_append.mp hx with hx | hx
      · obtain ⟨r, hr, hdir, htrue, hcolumns⟩ := hwatched x hx
        by_cases hkey : r.key = (dir, item.file.path)
        · -- the record is replaced by one about the same file, so about the same pair
          obtain ⟨-, y, hy, hpath, hcolumns'⟩ := hrows r hr hdir
          have hy' := ((items_of_orderPlayItems hplay).1 y
            (hitems y (List.mem_append_left _ hy)) y.file).mp List.mem_cons_self
          have hitem' := ((items_of_orderPlayItems hplay).1 item hlast item.file).mp
            List.mem_cons_self
          have hfile : y.file = item.file :=
            file_eq_of_path ((hfiles _).mp hy'.1) ((hfiles _).mp hitem'.1)
              (hpath.symm.trans (congrArg Prod.snd hkey))
          have hpair : y.pair = item.pair := by
            rw [hfile, hitem'.2.2] at hy'
            exact (Option.some.inj hy'.2.2).symm
          have hsame : x.pair = item.pair :=
            (columns_inj (hcolumns.symm.trans hcolumns')).trans hpair
          rw [hsame]
          exact hitem
        · exact ⟨r, Table.mem_insertOrReplace.mpr (.inl ⟨hr, hkey⟩), hdir, htrue, hcolumns⟩
      · rw [List.mem_singleton.mp hx]
        exact hitem

theorem toLex_zero_le (p : ℕ × ℕ) : toLex ((0, 0) : ℕ × ℕ) ≤ toLex p := by
  rcases Nat.eq_zero_or_pos p.1 with hzero | hpos
  · exact Prod.Lex.le_iff.mpr (.inr ⟨hzero.symm, Nat.zero_le _⟩)
  · exact Prod.Lex.le_iff.mpr (.inl hpos)

theorem zero_not_mem_pairs (hplay : orderPlayItems U files = some play) :
    ((0, 0) : ℕ × ℕ) ∉ play.pairs := by
  intro hmem
  obtain ⟨item, hitem, heq⟩ := List.mem_map.mp hmem
  exact season_ne_zero hplay hitem (congrArg Prod.fst heq)

theorem mem_files_listFiles (hfiles : listFiles dir db = some files) (f : WorkFile) :
    f ∈ files ↔ f ∈ filesIn db.files dir := by
  unfold listFiles at hfiles
  split_ifs at hfiles
  obtain rfl := Option.some.inj hfiles
  exact mem_sortBy

/-- The pairs of a summary depend on which files a work has only. -/
theorem mem_namedPairs_congr {files' : List WorkFile} (h : ∀ f, f ∈ files ↔ f ∈ files') :
    p ∈ namedPairs U dir files ↔ p ∈ namedPairs U dir files' := by
  unfold namedPairs
  split_ifs
  · rfl
  · simp only [List.mem_filterMap, List.mem_filter, h]

section AllHistories

variable (hfiles : listFiles dir db = some files) (hplay : orderPlayItems U files = some play)
  (hnew : ∀ r ∈ db.playback, r.dir ≠ dir) (hright : NextRight U db dir play)

include hfiles hplay hnew hright

/-- What is reported after some items are watched. -/
theorem nextIs_watch (items : List PlayItem) (hitems : ∀ item ∈ items, item ∈ play.items) :
    ∃ next : Option (ℕ × ℕ),
      NextIs play (fun q => q ∈ items.map PlayItem.pair) (next.getD (0, 0)) ∧
      (∀ p ∈ next, p ∈ namedPairs U dir files ∧ p ∉ items.map PlayItem.pair ∧
        ∀ q ∈ namedPairs U dir files, q ∉ items.map PlayItem.pair → toLex p ≤ toLex q) ∧
      (next = none → ∀ q ∈ namedPairs U dir files, q ∈ items.map PlayItem.pair) := by
  let after := writeAll (items.map (watch dir)) db
  have hassigned : ∀ w ∈ items.map (watch dir), w.dir = dir → Assigned play dir w := by
    intro w hw _
    obtain ⟨item, hitem, rfl⟩ := List.mem_map.mp hw
    exact assigned_watch (hitems item hitem)
  have hrecorded : Recorded play dir after :=
    recorded_writeAll hassigned fun r hr hdir => absurd hdir (hnew r hr)
  obtain ⟨hrows, hseen⟩ :=
    watched_writeAll_watch hplay (mem_files_listFiles hfiles) hnew items hitems
  have hwatched : ∀ q, Watched after dir q ↔ q ∈ items.map PlayItem.pair := by
    intro q
    constructor
    · rintro ⟨r, hr, hdir, -, hq⟩
      obtain ⟨-, item, hitem, -, hcolumns⟩ := hrows r hr hdir
      rw [← columns_inj (hcolumns.symm.trans hq)]
      exact List.mem_map_of_mem hitem
    · intro hq
      obtain ⟨item, hitem, rfl⟩ := List.mem_map.mp hq
      exact hseen item hitem
  have hnamed : ∀ q, q ∈ namedPairs U dir (filesIn after.files dir) ↔
      q ∈ namedPairs U dir files := by
    intro q
    rw [files_writeAll]
    exact mem_namedPairs_congr fun f => (mem_files_listFiles hfiles f).symm
  have hcolumns : ∀ q, columns q ∈ watchedPairs U after dir ↔ q ∈ items.map PlayItem.pair :=
    fun q => (mem_watchedPairs hplay hrecorded).trans (hwatched q)
  obtain ⟨next, hreport, hsome, hnone⟩ :=
    reportedNext_spec U after (List.mem_singleton_self dir)
  refine ⟨next, ?_, fun p hp => ?_, fun hnext q hq => ?_⟩
  · have his := hright (items.map (watch dir)) hassigned [dir] (List.mem_singleton_self dir)
    have hseen' : Watched after dir = fun q => q ∈ items.map PlayItem.pair :=
      funext fun q => propext (hwatched q)
    rw [hreport] at his
    exact hseen' ▸ his
  · obtain ⟨hmem, hunseen, hleast⟩ := hsome p hp
    refine ⟨(hnamed p).mp hmem, fun hw => hunseen ((hcolumns p).mpr hw), fun q hq hnot => ?_⟩
    exact hleast q ((hnamed q).mpr hq) fun hw => hnot ((hcolumns q).mp hw)
  · exact (hcolumns q).mp (hnone hnext q ((hnamed q).mpr hq))

theorem pairs_eq_nil_of_zero (hzero : ((0, 0) : ℕ × ℕ) ∈ namedPairs U dir files) :
    play.pairs = [] := by
  obtain ⟨next, his, hsome, hnone⟩ :=
    nextIs_watch hfiles hplay hnew hright [] fun item hitem => absurd hitem List.not_mem_nil
  have hreported : next.getD (0, 0) = (0, 0) := by
    cases next with
    | none => rfl
    | some p =>
      obtain ⟨-, -, hleast⟩ := hsome p rfl
      have hle := hleast (0, 0) hzero List.not_mem_nil
      exact toLex.injective (le_antisymm hle (toLex_zero_le p))
  rcases his with ⟨hall, -⟩ | ⟨hmem, -, -⟩
  · refine List.eq_nil_iff_forall_not_mem.mpr fun p hp => ?_
    cases hall p hp
  · rw [hreported] at hmem
    exact absurd hmem (zero_not_mem_pairs hplay)

theorem named_mem_pairs (hzero : ((0, 0) : ℕ × ℕ) ∉ namedPairs U dir files)
    (hp : p ∈ namedPairs U dir files) : p ∈ play.pairs := by
  obtain ⟨next, his, hsome, hnone⟩ :=
    nextIs_watch hfiles hplay hnew hright play.items fun item hitem => hitem
  cases next with
  | none => exact hnone rfl p hp
  | some q =>
    obtain ⟨hmem, hunseen, -⟩ := hsome q rfl
    rcases his with ⟨-, heq⟩ | ⟨hpair, hnot, -⟩
    · rw [Option.getD_some] at heq
      exact absurd (heq ▸ hmem) hzero
    · exact absurd hpair hnot

theorem pairs_mem_named (hp : p ∈ play.pairs) : p ∈ namedPairs U dir files := by
  obtain ⟨next, his, hsome, -⟩ :=
    nextIs_watch hfiles hplay hnew hright (play.items.filter (·.pair ≠ p))
      fun item hitem => (List.mem_filter.mp hitem).1
  have hothers : ∀ q, q ∈ (play.items.filter (·.pair ≠ p)).map PlayItem.pair ↔
      q ∈ play.pairs ∧ q ≠ p := by
    intro q
    constructor
    · intro hq
      obtain ⟨item, hitem, rfl⟩ := List.mem_map.mp hq
      obtain ⟨hmem, hne⟩ := List.mem_filter.mp hitem
      exact ⟨List.mem_map_of_mem hmem, of_decide_eq_true hne⟩
    · rintro ⟨hq, hne⟩
      obtain ⟨item, hitem, rfl⟩ := List.mem_map.mp hq
      exact List.mem_map_of_mem (List.mem_filter.mpr ⟨hitem, decide_eq_true hne⟩)
  rcases his with ⟨hall, -⟩ | ⟨hpair, hnot, -⟩
  · exact absurd rfl ((hothers p).mp (hall p hp)).2
  · have heq : next.getD (0, 0) = p :=
      not_not.mp fun hne => hnot ((hothers _).mpr ⟨hpair, hne⟩)
    cases next with
    | none =>
      obtain rfl : (0, 0) = p := heq
      exact absurd hp (zero_not_mem_pairs hplay)
    | some q =>
      obtain rfl : q = p := heq
      exact (hsome q rfl).1

end AllHistories

/-- The summaries report the next episode of the play list, after every history, just when the
bare names of the videos give the pairs of the play list. -/
theorem next_right_iff (hfiles : listFiles dir db = some files)
    (hplay : orderPlayItems U files = some play) (hnew : ∀ r ∈ db.playback, r.dir ≠ dir) :
    NextRight U db dir play ↔
      (∀ p, p ∈ namedPairs U dir files ↔ p ∈ play.pairs) ∨
        play.pairs = [] ∧ (0, 0) ∈ namedPairs U dir files := by
  constructor
  · intro hright
    by_cases hzero : ((0, 0) : ℕ × ℕ) ∈ namedPairs U dir files
    · exact .inr ⟨pairs_eq_nil_of_zero hfiles hplay hnew hright hzero, hzero⟩
    · exact .inl fun p => ⟨named_mem_pairs hfiles hplay hnew hright hzero,
        pairs_mem_named hfiles hplay hnew hright⟩
  · intro hsame history hassigned dirs hdir
    have hrecorded : Recorded play dir (writeAll history db) :=
      recorded_writeAll hassigned fun r hr heq => absurd heq (hnew r hr)
    have hnamed : ∀ q, q ∈ namedPairs U dir (filesIn (writeAll history db).files dir) ↔
        q ∈ namedPairs U dir files := by
      intro q
      rw [files_writeAll]
      exact mem_namedPairs_congr fun f => (mem_files_listFiles hfiles f).symm
    rcases hsame with hsame | ⟨hnil, hzero⟩
    · exact nextIs_of_mem_iff hplay hrecorded hdir fun p => (hnamed p).trans (hsame p)
    · obtain ⟨next, hreport, hsome, -⟩ :=
        reportedNext_spec U (writeAll history db) hdir
      refine .inl ⟨fun p hp => absurd hp (hnil ▸ List.not_mem_nil), ?_⟩
      rw [hreport]
      cases next with
      | none => rfl
      | some p =>
        obtain ⟨-, -, hleast⟩ := hsome p rfl
        have hunseen : columns (0, 0) ∉ watchedPairs U (writeAll history db) dir := by
          intro hw
          obtain ⟨r, hr, hin, -⟩ := (mem_watchedPairs hplay hrecorded).mp hw
          obtain ⟨item, hitem, -⟩ := hrecorded r hr hin
          have hpair : item.pair ∈ play.pairs := List.mem_map_of_mem hitem
          rw [hnil] at hpair
          cases hpair
        have hle := hleast (0, 0) ((hnamed _).mpr hzero) hunseen
        exact toLex.injective (le_antisymm hle (toLex_zero_le p))

/-- The tables of Unicode, for ASCII. -/
def asciiUnicode : Unicode where
  decimal c := if asciiDigit c then some (c.toNat - '0'.toNat) else none
  isDigit := asciiDigit
  lower := List.map Char.toLower

/-- A video of a work. -/
def episodeFile (dir name : Text) : WorkFile :=
  { dir, path := dir ++ '/' :: name, fileName := name
    etag := [], size := 7, s3KeyFlag := [], isVideo := true }

def firstEpisode : WorkFile := episodeFile "d".toList "S01E01.mkv".toList

def secondEpisode : WorkFile := episodeFile "d".toList "S01E02.mkv".toList

/-- Two works, the other one with a record. -/
def twoWorks : Db where
  sources := ∅
  works := ⟨[{ dir := "d".toList, source := "s".toList }, { dir := "e".toList, source := "s".toList }],
    by decide⟩
  files := ⟨[secondEpisode, firstEpisode, episodeFile "e".toList "S01E01.mkv".toList], by decide⟩
  playback := ⟨[⟨"e".toList, "e/S01E01.mkv".toList, 1, 1, 0, 0, 0, true, "t".toList⟩], by decide⟩

def twoEpisodes : PlayList := ⟨[(1, [⟨1, 1, firstEpisode, []⟩, ⟨1, 2, secondEpisode, []⟩])], none⟩

theorem next_right_iff_twoEpisodes : NextRight asciiUnicode twoWorks "d".toList twoEpisodes := by
  have hfiles : listFiles "d".toList twoWorks = some [firstEpisode, secondEpisode] := by decide
  have hplay : orderPlayItems asciiUnicode [firstEpisode, secondEpisode] = some twoEpisodes := rfl
  have hnamed : namedPairs asciiUnicode "d".toList [firstEpisode, secondEpisode] =
      [(1, 1), (1, 2)] := by decide
  refine (next_right_iff hfiles hplay (by decide)).mpr (.inl fun p => ?_)
  rw [hnamed]
  rfl

/-- The name of a file alone does not say the season of its directory. -/
example : parseSeasonEpisode asciiUnicode "d/Season 2/E05.mkv".toList [] = some (2, 5) ∧
    parseSeasonEpisode asciiUnicode "E05.mkv".toList [] = some (1, 5) := by decide

end AllInOneBackup.Cloud123.Library
