import AllInOneBackup.Data.FileTree
import AllInOneBackup.LitePan.Strm.Sidecars
import Mathlib.Data.List.Lattice

/-! The clean-up at the end of a scan, and its protection. A dry run counts what is to go, through
the same scopes as the clean-up itself, which goes through a tree that shrinks on the way. Paths are
those below the folder of the task, and the tree is the one that the scan has written its files to;
metadata are not synchronised here. -/

namespace AllInOneBackup.LitePan.Strm.Protection

open Data FileTree

abbrev Path := List Text

abbrev Tree := FileTree Text

structure CleanupScope where
  relDirs : Path
  recursive : Bool

/-- A task, and what its scan has found: `seen` are the files it has produced, `skippedDirs` and
`remoteChildren` have the keys of `dirKey`, and `cleanupBlocked` is whether there is a reason. -/
structure Scan where
  taskFolder : Path := []
  cleanupEnabled : Bool := true
  manualCleanupConfirm : Bool := false
  cleanupBlocked : Bool := false
  cleanupScopes : List CleanupScope := [⟨[], true⟩]
  seen : List Path := []
  skippedDirs : List Path := []
  remoteChildren : List (Path × List Text) := []

def maxPathComponentBytes : ℕ := 255

def strmDeleteThreshold : ℕ := 1000

def dirDeleteThreshold : ℕ := 20

def localDir (relDirs : Path) : Path := relDirs.map safeName

def isStrmUnderSkipped (skipped : List Path) (rel : Path) : Bool :=
  skipped.any fun key => key.isPrefixOf rel

/-- What a scope is read as; the loops over it are left out where it is skipped. -/
inductive Reading
  | skipped
  | failed
  | read (nodes : List (Node Text))

structure Cleaned where
  tree : Tree
  removed : ℕ := 0
  failed : Bool := false

/-- The next part of the clean-up, where this one has not failed. -/
def Cleaned.andThen (r : Cleaned) (next : Tree → Cleaned) : Cleaned :=
  if r.failed then r
  else
    let r' := next r.tree
    { r' with removed := r.removed + r'.removed }

structure CleanupImpact where
  staleStrm : ℕ
  staleDirs : ℕ

/-- What goes wrong: paths that the dry run cannot read; in the clean-up directories that cannot be
read, scopes of which the walk ends behind some stale files, stale files of which what goes with
them ends half way, empty directories that cannot be removed, and directories of which `RemoveAll`
leaves some paths and what lies above them. -/
structure Faults where
  dryRun : Path → Bool := fun _ => false
  read : Tree → Path → Bool := fun _ _ => false
  walk : Tree → Path → Option ℕ := fun _ _ => none
  stale : Tree → Path → Option ℕ := fun _ _ => none
  emptyDir : Tree → Path → Bool := fun _ _ => false
  removeAll : Tree → Path → Option (Path → Bool) := fun _ _ => none

section Functions

variable (u : UnicodeCase) (faults : Faults)

def isStrmFile (n : Node Text) : Bool := !n.isDir && isStrm u n.name

def entryOf (n : Node Text) : Entry := ⟨n.name, n.isDir⟩

/-- The entries that `removeStaleStrmAndSameStemSidecars` leaves in the directory of a file. -/
def leftBeside (t : Tree) (n : Node Text) : List Entry :=
  removeStaleStrmAndSameStemSidecars u ((t.entries n.dir).map entryOf) n.name

/-- What it removes, in its order: the file, its own sidecars, and shared ones. -/
def removals (t : Tree) (n : Node Text) : List (Node Text) :=
  let entries := ((t.entries n.dir).map entryOf).filter (·.name ≠ n.name)
  let own (m : Node Text) : Bool := isSidecar u entries n.name (stemOf n.name) m.name
  let gone := (t.entries n.dir).filter fun m => m ≠ n && entryOf m ∉ leftBeside u t n
  n :: (gone.filter own ++ gone.filter fun m => !own m)

def withoutStale (t : Tree) (n : Node Text) : Tree :=
  t.filter fun m => m.dir ≠ n.dir || entryOf m ∈ leftBeside u t n

/-- `removeStaleStrmAndSameStemSidecars`, which ends at the first error. -/
def removeStale (t : Tree) (n : Node Text) : Cleaned :=
  match faults.stale t n.path with
  | none => { tree := withoutStale u t n, removed := 1 }
  | some k => { tree := t.filter (· ∉ (removals u t n).take k), failed := true }

def removeStaleFiles : List (Node Text) → Tree → Cleaned
  | [], t => { tree := t }
  | n :: ns, t => (removeStale u faults t n).andThen (removeStaleFiles ns)

/-- The directories with the longest paths first; errors are ignored. -/
def removeEmptyDirs (t : Tree) (root : Path) : Tree :=
  let dirs := ((t.walk root).filter fun n => n.isDir && n.path ≠ root).map Node.path
  (dirs.insertionSort fun a b => len (join b) ≤ len (join a)).foldl
    (fun t p => if faults.emptyDir t p then t else removeEmptyDir t p) t
where join (p : Path) : Text := Text.join '/' p

def countStrmFiles (t : Tree) (p : Path) : ℕ := (t.walk p).countP (isStrmFile u)

/-- `RemoveAll`, after the `.strm` files have been counted. -/
def removeDir (t : Tree) (p : Path) : Cleaned :=
  match faults.removeAll t p with
  | none => { tree := t.removeAll p, removed := countStrmFiles u t p }
  | some keep =>
    { tree := t.filter fun n => !p.isPrefixOf n.path ||
        (t.walk p).any fun m => keep m.path && n.path.isPrefixOf m.path
      failed := true }

def removeDirs : List Path → Tree → Cleaned
  | [], t => { tree := t }
  | p :: ps, t => (removeDir u faults t p).andThen (removeDirs ps)

end Functions

namespace Scan

variable (u : UnicodeCase) (faults : Faults) (s : Scan)

def tooLong (part : Text) : Bool := maxPathComponentBytes < len part

def oversized (p : Path) : Bool := (s.taskFolder ++ p).any tooLong

/-- `ReadDir` also fails on a name that is too long, unless a directory before it is not there. -/
def statDir (t : Tree) (p : Path) : Stat :=
  if s.oversized p && (s.taskFolder.any tooLong || t.stat (p.takeWhile (!tooLong ·)) = .dir) then
    .notDir
  else t.stat p

def readScope (unreadable : Path → Bool) (t : Tree) (scope : CleanupScope) : Reading :=
  let root := localDir scope.relDirs
  if s.oversized root then .skipped
  else match t.stat root, scope.recursive with
    | .notExist, _ => .skipped
    | .dir, true | .file, true => if unreadable root then .failed else .read (t.walk root)
    | .dir, false => if unreadable root then .failed else .read (t.entries root)
    | .file, false | .notDir, _ => .failed

/-- The file is neither seen nor below a skipped directory. -/
def isStale (n : Node Text) : Bool :=
  isStrmFile u n && n.path ∉ s.seen && !isStrmUnderSkipped s.skippedDirs n.path

/-- The stale files among the nodes of a scope. -/
def cleanupNodes (nodes : List (Node Text)) (root : Path) (t : Tree) : Cleaned :=
  let stale := nodes.filter (s.isStale u)
  match faults.walk t root with
  | none =>
    let r := removeStaleFiles u faults stale t
    if r.failed then r else { r with tree := removeEmptyDirs faults r.tree root }
  | some k => { removeStaleFiles u faults (stale.take k) t with failed := true }

def cleanupScopedStaleFiles : List CleanupScope → Tree → Cleaned
  | [], t => { tree := t }
  | scope :: scopes, t =>
    match s.readScope (faults.read t) t scope with
    | .skipped => cleanupScopedStaleFiles scopes t
    | .failed => { tree := t, failed := true }
    | .read nodes =>
      (s.cleanupNodes u faults nodes (localDir scope.relDirs) t).andThen
        (cleanupScopedStaleFiles scopes)

/-- The paths that `collectCleanupImpact` gathers; `none` is an error. -/
def staleSet (t : Tree) : List CleanupScope → Option (List Path)
  | [] => some []
  | scope :: scopes =>
    match s.readScope faults.dryRun t scope with
    | .skipped => staleSet t scopes
    | .failed => none
    | .read nodes =>
      (staleSet t scopes).map fun paths =>
        (nodes.filter (s.isStale u)).map Node.path ∪ paths

/-- The children of a directory that the remote directory does not have. -/
def missingChildren (unreadable : Path → Bool) (t : Tree) (relDirs : Path)
    (remoteNames : List Text) : Option (List Path) :=
  match s.statDir t (localDir relDirs) with
  | .notExist => some []
  | .dir =>
    if unreadable (localDir relDirs) then none
    else some (((t.entries (localDir relDirs)).filter fun n =>
      n.isDir && safeName n.name ∉ remoteNames).map Node.path)
  | _ => none

/-- All that `forEachMissingRemoteChildDir` visits. -/
def missingDirs (t : Tree) : List (Path × List Text) → Option (List Path)
  | [] => some []
  | (relDirs, remoteNames) :: rest =>
    (s.missingChildren faults.dryRun t relDirs remoteNames).bind fun dirs =>
      (missingDirs t rest).map fun more => dirs ++ more

def cleanupMissingRemoteChildDirs : List (Path × List Text) → Tree → Cleaned
  | [], t => { tree := t }
  | (relDirs, remoteNames) :: rest, t =>
    if s.oversized (localDir relDirs) then cleanupMissingRemoteChildDirs rest t
    else match s.missingChildren (faults.read t) t relDirs remoteNames with
      | none => { tree := t, failed := true }
      | some dirs => (removeDirs u faults dirs t).andThen (cleanupMissingRemoteChildDirs rest)

def collectCleanupImpact (t : Tree) : Option CleanupImpact :=
  (s.staleSet u faults t s.cleanupScopes).bind fun stale =>
    (s.missingDirs faults t s.remoteChildren).map fun dirs => ⟨stale.length, dirs.length⟩

/-- Whether the clean-up is stopped; `none` is an error. -/
def protectReason (t : Tree) : Option Bool :=
  if !s.cleanupEnabled then some false
  else if s.cleanupBlocked then some true
  else if s.manualCleanupConfirm then some false
  else (s.collectCleanupImpact u faults t).map fun imp =>
    strmDeleteThreshold ≤ imp.staleStrm || dirDeleteThreshold ≤ imp.staleDirs

/-- Where it fails its number is not added to the result. -/
def syncAndCleanup (t : Tree) : Cleaned :=
  if !s.cleanupEnabled then { tree := t }
  else
    let r := (s.cleanupScopedStaleFiles u faults s.cleanupScopes t).andThen
      (s.cleanupMissingRemoteChildDirs u faults s.remoteChildren)
    if r.failed then { r with removed := 0 } else r

/-- The end of a scan, and whether it was protected. -/
def finalizeScan (t : Tree) : Cleaned × Bool :=
  match s.protectReason u faults t with
  | none => ({ tree := t, failed := true }, false)
  | some true => ({ tree := t }, true)
  | some false => (s.syncAndCleanup u faults t, false)

end Scan

/-! ### One stale file -/

section Stale

variable {u : UnicodeCase} {t : Tree} {n m : Node Text}

theorem isStrmFile_iff : isStrmFile u n ↔ n.isDir = false ∧ isStrm u n.name := by
  rw [isStrmFile, Bool.and_eq_true, Bool.not_eq_true']

theorem isStrmFile_of_isStale {s : Scan} (h : s.isStale u n) : isStrmFile u n := by
  simp only [Scan.isStale, Bool.and_eq_true] at h
  exact h.1.1

theorem mem_withoutStale : m ∈ withoutStale u t n ↔ m ∈ t ∧ (m.dir = n.dir →
    entryOf m ∈ leftBeside u t n) := by
  rw [withoutStale, List.mem_filter, Bool.or_eq_true, decide_eq_true_iff, decide_eq_true_iff,
    ← imp_iff_not_or]

/-- Neither a directory nor another `.strm` file goes with it. -/
theorem mem_withoutStale_iff (h : t.Closed) (hn : n ∈ t) (hstrm : isStrmFile u n)
    (hm : m.isDir = true ∨ isStrmFile u m) : m ∈ withoutStale u t n ↔ m ∈ t ∧ m ≠ n := by
  rw [mem_withoutStale]
  refine and_congr_right fun hmem => ⟨?_, fun hne hdir => ?_⟩
  · rintro hleft rfl
    exact not_mem_of_name rfl (hleft rfl)
  · have hentry : entryOf m ∈ (t.entries n.dir).map entryOf :=
      List.mem_map_of_mem (mem_entries.mpr ⟨hmem, hdir⟩)
    by_contra hgone
    rcases removed_cases hentry hgone with hname | hsidecar | hshared
    · have hnames : m.name = n.name := hname
      refine hne (h.eq_of_path hmem hn ?_)
      rw [Node.path, Node.path, hdir, hnames]
    · have hfile : m.isDir = false := hsidecar.2.1
      have hmatches := hsidecar.2.2
      rcases hm with hm | hm
      · rw [hm] at hfile
        cases hfile
      · rw [isSidecar, Bool.and_eq_true] at hmatches
        exact not_matchesStem_of_isStrm (isStrmFile_iff.mp hm).2 hmatches.1
    · have hfile : m.isDir = false ∧ isSharedMediaSidecar u m.name := by
        simpa [isSharedFile, entryOf] using hshared.1
      rcases hm with hm | hm
      · rw [hm] at hfile
        cases hfile.1
      · exact not_isSharedMediaSidecar_of_isStrm (isStrmFile_iff.mp hm).2 hfile.2

theorem Closed.withoutStale (h : t.Closed) (hn : n ∈ t) (hstrm : isStrmFile u n) :
    Closed (withoutStale u t n) :=
  h.filter_files fun m hm hdir => by
    have hmem := (mem_withoutStale_iff h hn hstrm (.inl hdir)).mpr ⟨hm, ?_⟩
    · exact (List.mem_filter.mp hmem).2
    · rintro rfl
      rw [(isStrmFile_iff.mp hstrm).1] at hdir
      cases hdir

/-- Of the directories and `.strm` files only the file itself is among what is removed. -/
theorem eq_of_mem_removals (h : t.Closed) (hn : n ∈ t) (hstrm : isStrmFile u n)
    (hm : m.isDir = true ∨ isStrmFile u m) (hmem : m ∈ removals u t n) : m = n := by
  by_contra hne
  have hgone : m ∈ (t.entries n.dir).filter fun m => m ≠ n && entryOf m ∉ leftBeside u t n := by
    rcases List.mem_cons.mp hmem with heq | hmem
    · exact absurd heq hne
    · rcases List.mem_append.mp hmem with hmem | hmem <;> exact List.mem_of_mem_filter hmem
  obtain ⟨hentry, hnot⟩ := List.mem_filter.mp hgone
  obtain ⟨hmt, hdir⟩ := mem_entries.mp hentry
  rw [Bool.and_eq_true, decide_eq_true_iff, decide_eq_true_iff] at hnot
  exact hnot.2 ((mem_withoutStale.mp
    ((mem_withoutStale_iff h hn hstrm hm).mpr ⟨hmt, hne⟩)).2 hdir)

theorem removeEmptyDirs_spec (faults : Faults) (h : t.Closed) (root : Path) :
    Closed (removeEmptyDirs faults t root) ∧ removeEmptyDirs faults t root ⊆ t ∧
      ∀ m, isStrmFile u m → (m ∈ removeEmptyDirs faults t root ↔ m ∈ t) := by
  unfold removeEmptyDirs
  obtain ⟨hclosed, hsub, hfiles⟩ := closed_foldl_removeEmptyDir faults.emptyDir _ h
  exact ⟨hclosed, hsub, fun m hm => ⟨fun hin => hsub hin, fun hin =>
    hfiles m hin (isStrmFile_iff.mp hm).1⟩⟩

end Stale

/-! ### The scopes -/

section Scopes

variable {u : UnicodeCase} {s : Scan} {t t' : Tree} {scope : CleanupScope} {n : Node Text}
  {unreadable unreadable' : Path → Bool}

/-- The loops over the scope come to the node. -/
def Scan.InScope (s : Scan) (scope : CleanupScope) (n : Node Text) : Prop :=
  s.oversized (localDir scope.relDirs) = false ∧
    if scope.recursive then localDir scope.relDirs <+: n.path
    else n.dir = localDir scope.relDirs

theorem Scan.InScope.prefix_path (h : s.InScope scope n) : localDir scope.relDirs <+: n.path := by
  have hin := h.2
  split_ifs at hin
  · exact hin
  · rw [← hin]
    exact List.prefix_append _ _

theorem not_inScope_of_skipped (h : t.Closed) (hskip : s.readScope unreadable t scope = .skipped)
    (hn : n ∈ t) : ¬s.InScope scope n := by
  intro hin
  have hexist : t.stat (localDir scope.relDirs) = .notExist := by
    unfold Scan.readScope at hskip
    dsimp only at hskip
    rw [if_neg (by simp [hin.1])] at hskip
    split at hskip
    · assumption
    all_goals first | cases hskip | (split_ifs at hskip)
  exact h.not_prefix hexist hn hin.prefix_path

theorem mem_of_read (h : t.Closed) {nodes : List (Node Text)}
    (hread : s.readScope unreadable t scope = .read nodes) :
    nodes.Nodup ∧ ∀ n, n.isDir = false → (n ∈ nodes ↔ n ∈ t ∧ s.InScope scope n) := by
  have hnodup : t.Nodup := h.paths.of_map _
  unfold Scan.readScope at hread
  dsimp only at hread
  by_cases hsize : s.oversized (localDir scope.relDirs) = true
  · rw [if_pos hsize] at hread
    cases hread
  rw [if_neg hsize] at hread
  have hwalk : scope.recursive = true → nodes = t.walk (localDir scope.relDirs) →
      nodes.Nodup ∧ ∀ n, n.isDir = false → (n ∈ nodes ↔ n ∈ t ∧ s.InScope scope n) := by
    rintro hrecursive rfl
    refine ⟨hnodup.filter _, fun n _ => ?_⟩
    rw [mem_walk, Scan.InScope, if_pos hrecursive]
    simp [hsize]
  split at hread
  · cases hread
  · split_ifs at hread
    exact hwalk (by assumption) (Reading.read.inj hread).symm
  · split_ifs at hread
    exact hwalk (by assumption) (Reading.read.inj hread).symm
  · split_ifs at hread
    obtain rfl := Reading.read.inj hread
    refine ⟨hnodup.filter _, fun n _ => ?_⟩
    rw [mem_entries, Scan.InScope, if_neg (by simp [*])]
    simp [hsize]
  · cases hread
  · cases hread

/-- A scope that could be read can be read when less is left, unless that fails now. -/
theorem readScope_ne_failed (h : t.Closed) (hsub : t' ⊆ t) (h' : t'.Closed)
    (hread : s.readScope unreadable t scope ≠ .failed) (hnone : ∀ p, unreadable' p = false) :
    s.readScope unreadable' t' scope ≠ .failed := by
  intro hfailed
  unfold Scan.readScope at hread hfailed
  dsimp only at hread hfailed
  by_cases hsize : s.oversized (localDir scope.relDirs) = true
  · rw [if_pos hsize] at hfailed
    cases hfailed
  rw [if_neg hsize] at hread hfailed
  simp only [hnone, Bool.false_eq_true, if_false] at hfailed
  split at hfailed
  case h_5 hstat hrecursive =>
    have hfile : t.stat (localDir scope.relDirs) = .file := by
      obtain ⟨n, hn, hkind⟩ := (stat_eq_file h').mp hstat
      exact (stat_eq_file h).mpr ⟨n, hsub hn, hkind⟩
    rw [hfile, hrecursive] at hread
    exact hread rfl
  case h_6 hstat =>
    refine stat_ne_notDir h hsub (fun hnot => ?_) hstat
    rw [hnot] at hread
    exact hread rfl
  all_goals cases hfailed

end Scopes

/-! ### What a clean-up takes -/

def strmCount (u : UnicodeCase) (t : Tree) : ℕ := t.countP (isStrmFile u)

/-- Nothing goes wrong in the clean-up, apart from directories that stay empty. -/
structure Faults.Absent (faults : Faults) : Prop where
  read : ∀ t p, faults.read t p = false
  walk : ∀ t p, faults.walk t p = none
  stale : ∀ t p, faults.stale t p = none
  removeAll : ∀ t p, faults.removeAll t p = none

/-- Of the `.strm` files only those that are `gone` have been removed, and, where the clean-up has
not failed, all of them, and counted. -/
structure Outcome (u : UnicodeCase) (faults : Faults) (t : Tree) (gone : Node Text → Prop)
    (r : Cleaned) : Prop where
  closed : r.tree.Closed
  sub : r.tree ⊆ t
  within : ∀ m ∈ t, isStrmFile u m → m ∉ r.tree → gone m
  takes : r.failed = false → ∀ m ∈ t, isStrmFile u m → gone m → m ∉ r.tree
  count : r.failed = false → strmCount u r.tree + r.removed = strmCount u t
  ok : faults.Absent → r.failed = false

section Outcomes

variable {u : UnicodeCase} {faults : Faults} {s : Scan} {t t₀ t₁ : Tree}
  {gone gone' : Node Text → Prop} {r : Cleaned} {n : Node Text}

theorem Outcome.congr (h : Outcome u faults t gone r)
    (hgone : ∀ m ∈ t, isStrmFile u m → (gone m ↔ gone' m)) : Outcome u faults t gone' r :=
  { h with
    within := fun m hm hstrm hnot => (hgone m hm hstrm).mp (h.within m hm hstrm hnot)
    takes := fun hok m hm hstrm hm' => h.takes hok m hm hstrm ((hgone m hm hstrm).mpr hm') }

theorem outcome_nothing (h : t.Closed) (hgone : ∀ m ∈ t, isStrmFile u m → ¬gone m) :
    Outcome u faults t gone { tree := t } where
  closed := h
  sub := List.Subset.refl t
  within _ hm _ hnot := absurd hm hnot
  takes _ m hm hstrm hm' := absurd hm' (hgone m hm hstrm)
  count _ := rfl
  ok _ := rfl

/-- A clean-up that ends here, with an error, has done a part. -/
theorem Outcome.fail (h : Outcome u faults t gone r) (hgone : ∀ m, gone m → gone' m)
    (hfaults : ¬faults.Absent) : Outcome u faults t gone' { r with failed := true } where
  closed := h.closed
  sub := h.sub
  within m hm hstrm hnot := hgone m (h.within m hm hstrm hnot)
  takes hok := by cases hok
  count hok := by cases hok
  ok habsent := absurd habsent hfaults

theorem outcome_failed (h : t.Closed) (hfaults : ¬faults.Absent) :
    Outcome u faults t gone { tree := t, failed := true } :=
  (@outcome_nothing _ _ _ (fun _ => False) h fun _ _ _ => id).fail (fun _ => False.elim) hfaults

/-- One part of the clean-up after another. -/
theorem Outcome.andThen {next : Tree → Cleaned} (h : Outcome u faults t gone r)
    (h' : r.failed = false → Outcome u faults r.tree gone' (next r.tree)) :
    Outcome u faults t (fun m => gone m ∨ gone' m) (r.andThen next) := by
  unfold Cleaned.andThen
  cases hfailed : r.failed with
  | true =>
    exact
      { h with
        within := fun m hm hstrm hnot => .inl (h.within m hm hstrm hnot)
        takes := fun hok => absurd hok (by simp [hfailed])
        count := fun hok => absurd hok (by simp [hfailed]) }
  | false =>
    have hnext := h' hfailed
    exact
      { closed := hnext.closed
        sub := List.Subset.trans hnext.sub h.sub
        within := fun m hm hstrm hnot => by
          by_cases hin : m ∈ r.tree
          · exact .inr (hnext.within m hin hstrm hnot)
          · exact .inl (h.within m hm hstrm hin)
        takes := fun hok m hm hstrm hm' hin => by
          rcases hm' with hm' | hm'
          · exact h.takes hfailed m hm hstrm hm' (hnext.sub hin)
          · exact hnext.takes hok m (hnext.sub hin) hstrm hm' hin
        count := fun hok => by
          have hfirst := h.count hfailed
          have hsecond := hnext.count hok
          show strmCount u (next r.tree).tree + (r.removed + (next r.tree).removed) = _
          omega
        ok := hnext.ok }

theorem strmCount_add_length {ns : List (Node Text)} (ht : t.Nodup) (ht₁ : t₁.Nodup)
    (hns : ns.Nodup) (hstrm : ∀ n ∈ ns, n ∈ t ∧ isStrmFile u n)
    (hmem : ∀ m, isStrmFile u m → (m ∈ t₁ ↔ m ∈ t ∧ m ∉ ns)) :
    strmCount u t₁ + ns.length = strmCount u t := by
  have hdisjoint : (t₁.filter (isStrmFile u)).Disjoint ns := by
    intro m hm hin
    obtain ⟨hm, hfile⟩ := List.mem_filter.mp hm
    exact ((hmem m hfile).mp hm).2 hin
  have hperm : (t₁.filter (isStrmFile u) ++ ns).Perm (t.filter (isStrmFile u)) := by
    refine (List.perm_ext_iff_of_nodup ((ht₁.filter _).append hns hdisjoint)
      (ht.filter _)).mpr fun m => ?_
    rw [List.mem_append, List.mem_filter, List.mem_filter]
    constructor
    · rintro (⟨hm, hfile⟩ | hm)
      · exact ⟨((hmem m hfile).mp hm).1, hfile⟩
      · exact hstrm m hm
    · rintro ⟨hm, hfile⟩
      by_cases hin : m ∈ ns
      · exact .inr hin
      · exact .inl ⟨(hmem m hfile).mpr ⟨hm, hin⟩, hfile⟩
  have hlength := hperm.length_eq
  rwa [List.length_append, ← List.countP_eq_length_filter, ← List.countP_eq_length_filter]
    at hlength

/-- One stale file: what goes with it is neither a directory nor another `.strm` file. -/
theorem outcome_removeStale (h : t.Closed) (hn : n ∈ t) (hstrm : isStrmFile u n) :
    Outcome u faults t (· = n) (removeStale u faults t n) := by
  unfold removeStale
  cases hfault : faults.stale t n.path with
  | none =>
    have hclosed := Closed.withoutStale h hn hstrm
    have hmem : ∀ m, isStrmFile u m → (m ∈ withoutStale u t n ↔ m ∈ t ∧ m ∉ [n]) := fun m hm => by
      rw [mem_withoutStale_iff h hn hstrm (.inr hm), List.mem_singleton]
    exact
      { closed := hclosed
        sub := List.filter_subset_self _
        within := fun m hm hfile hnot => by
          by_contra hne
          exact hnot ((hmem m hfile).mpr ⟨hm, by simpa using hne⟩)
        takes := fun _ m _ hfile heq hin => ((hmem m hfile).mp hin).2 (by simp [heq])
        count := fun _ => strmCount_add_length (h.paths.of_map _) (hclosed.paths.of_map _)
          (List.nodup_singleton n) (by simp [hn, hstrm]) hmem
        ok := fun _ => rfl }
  | some k =>
    exact
      { closed := h.filter_files fun m _ hdir => by
          refine decide_eq_true fun hin => ?_
          rw [eq_of_mem_removals h hn hstrm (.inl hdir) (List.mem_of_mem_take hin),
            (isStrmFile_iff.mp hstrm).1] at hdir
          cases hdir
        sub := List.filter_subset_self _
        within := fun m hm hfile hnot => by
          refine eq_of_mem_removals h hn hstrm (.inr hfile) (List.mem_of_mem_take (i := k) ?_)
          by_contra hkept
          exact hnot (List.mem_filter.mpr ⟨hm, decide_eq_true hkept⟩)
        takes := fun hok => by cases hok
        count := fun hok => by cases hok
        ok := fun habsent => absurd (habsent.stale t n.path) (by simp [hfault]) }

theorem outcome_removeStaleFiles (ns : List (Node Text)) (h : t.Closed) (hnodup : ns.Nodup)
    (hns : ∀ n ∈ ns, n ∈ t ∧ isStrmFile u n) :
    Outcome u faults t (· ∈ ns) (removeStaleFiles u faults ns t) := by
  induction ns generalizing t with
  | nil => exact outcome_nothing h fun _ _ _ => List.not_mem_nil
  | cons n ns ih =>
    obtain ⟨hn, hstrm⟩ := hns n List.mem_cons_self
    have hnodup' := List.nodup_cons.mp hnodup
    have hone := @outcome_removeStale u faults _ _ h hn hstrm
    refine (hone.andThen fun _ => ih hone.closed hnodup'.2 fun n' hn' => ?_).congr
      fun m _ _ => List.mem_cons.symm
    obtain ⟨hin, hstrm'⟩ := hns n' (List.mem_cons_of_mem n hn')
    refine ⟨?_, hstrm'⟩
    by_contra hgone
    rw [← hone.within n' hin hstrm' hgone] at hnodup'
    exact hnodup'.1 hn'

/-- The empty directories are no files. -/
theorem Outcome.removeEmptyDirs (h : Outcome u faults t gone r) (root : Path) :
    Outcome u faults t gone { r with tree := removeEmptyDirs faults r.tree root } := by
  obtain ⟨hclosed, hsub, hmem⟩ := removeEmptyDirs_spec (u := u) faults h.closed root
  exact
    { closed := hclosed
      sub := List.Subset.trans hsub h.sub
      within := fun m hm hstrm hnot => h.within m hm hstrm fun hin => hnot ((hmem m hstrm).mpr hin)
      takes := fun hok m hm hstrm hm' hin => h.takes hok m hm hstrm hm' (hsub hin)
      count := fun hok => by
        have hsame := strmCount_add_length (h.closed.paths.of_map _) (hclosed.paths.of_map _)
          List.nodup_nil (by simp) (by simpa using hmem)
        rw [← h.count hok, ← hsame, List.length_nil, Nat.add_zero]
      ok := h.ok }

/-- The stale files of one scope, and the directories that they leave empty. -/
theorem outcome_cleanupNodes (h : t.Closed) {unreadable : Path → Bool} {scope : CleanupScope}
    {nodes : List (Node Text)} (hread : s.readScope unreadable t scope = .read nodes) :
    Outcome u faults t (fun m => s.isStale u m ∧ s.InScope scope m)
      (s.cleanupNodes u faults nodes (localDir scope.relDirs) t) := by
  obtain ⟨hnodup, hnodes⟩ := mem_of_read h hread
  have hfilter : ∀ m, isStrmFile u m → (m ∈ nodes.filter (s.isStale u) ↔
      m ∈ t ∧ s.isStale u m ∧ s.InScope scope m) := fun m hm => by
    rw [List.mem_filter, hnodes m (isStrmFile_iff.mp hm).1]
    tauto
  have hns : ∀ n ∈ nodes.filter (s.isStale u), n ∈ t ∧ isStrmFile u n := fun n hn => by
    have hstrm := isStrmFile_of_isStale (List.mem_filter.mp hn).2
    exact ⟨((hfilter n hstrm).mp hn).1, hstrm⟩
  have hstale : ∀ m ∈ nodes.filter (s.isStale u), s.isStale u m ∧ s.InScope scope m := fun m hm =>
    ((hfilter m (hns m hm).2).mp hm).2
  unfold Scan.cleanupNodes
  dsimp only
  cases hwalk : faults.walk t (localDir scope.relDirs) with
  | none =>
    have hfiles := (@outcome_removeStaleFiles u faults _ _ h (hnodup.filter _) hns).congr
      fun m hm hstrm => (hfilter m hstrm).trans (and_iff_right hm)
    dsimp only
    split_ifs
    · exact hfiles
    · exact hfiles.removeEmptyDirs _
  | some k =>
    have hfiles := @outcome_removeStaleFiles u faults _ ((nodes.filter (s.isStale u)).take k)
      h ((hnodup.filter _).sublist (List.take_sublist k _))
      fun n hn => hns n (List.mem_of_mem_take hn)
    exact hfiles.fail (fun m hm => hstale m (List.mem_of_mem_take hm)) fun habsent => by
      simp [habsent.walk] at hwalk

theorem outcome_scopes (h₀ : t₀.Closed) (scopes : List CleanupScope)
    (hread : ∀ scope ∈ scopes, s.readScope faults.dryRun t₀ scope ≠ .failed) (h : t.Closed)
    (hsub : t ⊆ t₀) :
    Outcome u faults t (fun m => s.isStale u m ∧ ∃ scope ∈ scopes, s.InScope scope m)
      (s.cleanupScopedStaleFiles u faults scopes t) := by
  induction scopes generalizing t with
  | nil => exact outcome_nothing h fun m _ _ hgone => by simp at hgone
  | cons scope scopes ih =>
    have hread' := fun sc hsc => hread sc (List.mem_cons_of_mem scope hsc)
    unfold Scan.cleanupScopedStaleFiles
    cases hcase : s.readScope (faults.read t) t scope with
    | failed =>
      refine outcome_failed h fun habsent => ?_
      exact readScope_ne_failed h₀ hsub h (hread scope List.mem_cons_self) (habsent.read t) hcase
    | skipped =>
      refine (ih hread' h hsub).congr fun m hm _ => and_congr_right fun _ => ?_
      rw [List.exists_mem_cons_iff, or_iff_right (not_inScope_of_skipped h hcase hm)]
    | read nodes =>
      have hone := @outcome_cleanupNodes u faults _ _ h _ _ _ hcase
      refine (hone.andThen fun _ => ih hread' hone.closed
        (List.Subset.trans hone.sub hsub)).congr fun m _ _ => ?_
      rw [List.exists_mem_cons_iff, ← and_or_left]

end Outcomes

/-! ### The missing directories -/

/-- A directory on the disk that its listed remote directory does not have. -/
def IsMissing (t : Tree) (listed : Path × List Text) (p : Path) : Prop :=
  ∃ n ∈ t, n.isDir = true ∧ n.dir = localDir listed.1 ∧ safeName n.name ∉ listed.2 ∧ n.path = p

section Missing

variable {u : UnicodeCase} {faults : Faults} {s : Scan} {t t₀ : Tree}
  {unreadable unreadable' : Path → Bool} {e : Path × List Text}

theorem statDir_eq_stat {p : Path} (h : s.oversized p = false) : s.statDir t p = t.stat p := by
  rw [Scan.statDir, if_neg (by simp [h])]

/-- Where the name is too long the directory is not there, or reading it fails. -/
theorem statDir_cases (t : Tree) (p : Path) : s.statDir t p = t.stat p ∨ s.statDir t p = .notDir := by
  unfold Scan.statDir
  split_ifs
  · exact .inr rfl
  · exact .inl rfl

theorem mem_missingChildren (h : t.Closed) {dirs : List Path}
    (hdirs : s.missingChildren unreadable t e.1 e.2 = some dirs) {p : Path} :
    p ∈ dirs ↔ IsMissing t e p := by
  unfold Scan.missingChildren at hdirs
  split at hdirs
  case h_1 hstat =>
    obtain rfl := Option.some.inj hdirs
    refine iff_of_false List.not_mem_nil ?_
    rintro ⟨n, hn, -, hdir, -, -⟩
    have hnotExist : t.stat (localDir e.1) = .notExist := by
      rcases statDir_cases (s := s) t (localDir e.1) with heq | heq
      · rw [← heq, hstat]
      · rw [heq] at hstat
        cases hstat
    refine h.not_prefix hnotExist hn ?_
    rw [← hdir]
    exact List.prefix_append _ _
  case h_2 =>
    split_ifs at hdirs
    obtain rfl := Option.some.inj hdirs
    rw [List.mem_map]
    refine exists_congr fun n => ?_
    rw [List.mem_filter, mem_entries, Bool.and_eq_true, decide_eq_true_iff]
    tauto
  case h_3 => cases hdirs

/-- A directory with a name that is too long has no missing ones, where the dry run comes through:
it is not there. -/
theorem not_isMissing_of_oversized (h : t.Closed) (hsize : s.oversized (localDir e.1) = true)
    (hsome : s.missingChildren unreadable t e.1 e.2 ≠ none) (p : Path) : ¬IsMissing t e p := by
  rintro ⟨n, hn, -, hdir, -, -⟩
  refine hsome ?_
  have habove : t.stat ((localDir e.1).takeWhile (!Scan.tooLong ·)) = .dir := by
    refine stat_eq_dir.mpr (h.isDir_of_prefix hn ?_)
    rw [hdir]
    exact List.takeWhile_prefix _
  rw [Scan.missingChildren, Scan.statDir, if_pos (by simp [hsize, habove])]

theorem missingChildren_ne_none (h : t₀.Closed) (h' : t.Closed) (hsub : t ⊆ t₀)
    (hsize : s.oversized (localDir e.1) = false)
    (hsome : s.missingChildren unreadable t₀ e.1 e.2 ≠ none) (hread : ∀ p, unreadable' p = false) :
    s.missingChildren unreadable' t e.1 e.2 ≠ none := by
  intro hnone
  unfold Scan.missingChildren at hsome hnone
  rw [statDir_eq_stat hsize] at hsome hnone
  split at hnone
  · cases hnone
  · rw [if_neg (by simp [hread])] at hnone
    cases hnone
  · cases hstat : t.stat (localDir e.1) with
    | dir => exact absurd hstat (by assumption)
    | notExist => exact absurd hstat (by assumption)
    | file =>
      obtain ⟨n, hn, hkind⟩ := (stat_eq_file h').mp hstat
      rw [(stat_eq_file h).mpr ⟨n, hsub hn, hkind⟩] at hsome
      exact hsome rfl
    | notDir =>
      refine stat_ne_notDir h hsub (fun hnot => ?_) hstat
      rw [hnot] at hsome
      exact hsome rfl

theorem mem_missingDirs (h : t.Closed) {listed : List (Path × List Text)} {dirs : List Path}
    (hdirs : s.missingDirs faults t listed = some dirs) :
    (∀ e ∈ listed, s.missingChildren faults.dryRun t e.1 e.2 ≠ none) ∧
      ∀ p, p ∈ dirs ↔ ∃ e ∈ listed, IsMissing t e p := by
  induction listed generalizing dirs with
  | nil =>
    cases hdirs
    exact ⟨fun _ he => (List.not_mem_nil he).elim, fun p => by simp⟩
  | cons e listed ih =>
    obtain ⟨first, hfirst, hdirs⟩ := Option.bind_eq_some_iff.mp hdirs
    obtain ⟨more, hmore, rfl⟩ := Option.map_eq_some_iff.mp hdirs
    obtain ⟨hsome, hmem⟩ := ih hmore
    refine ⟨List.forall_mem_cons.mpr ⟨by simp [hfirst], hsome⟩, fun p => ?_⟩
    rw [List.mem_append, mem_missingChildren h hfirst, hmem, List.exists_mem_cons_iff]

/-- The `.strm` files below a directory are counted before it goes. -/
theorem outcome_removeDir (h : t.Closed) (p : Path) :
    Outcome u faults t (fun m => p <+: m.path) (removeDir u faults t p) := by
  unfold removeDir
  cases hfault : faults.removeAll t p with
  | none =>
    exact
      { closed := h.removeAll p
        sub := List.filter_subset_self _
        within := fun m hm _ hnot => by
          by_contra hp
          exact hnot (mem_removeAll.mpr ⟨hm, hp⟩)
        takes := fun _ m _ _ hp hin => (mem_removeAll.mp hin).2 hp
        count := fun _ => by
          show (t.removeAll p).countP (isStrmFile u) + (t.walk p).countP (isStrmFile u) =
            strmCount u t
          rw [Nat.add_comm, walk, removeAll, strmCount]
          exact (List.countP_eq_countP_filter_add t _ _).symm
        ok := fun _ => rfl }
  | some keep =>
    exact
      { closed := by
          refine h.filter fun m hm hkept n hn _ hpath => ?_
          rw [Bool.or_eq_true, Bool.not_eq_true', ← Bool.not_eq_true, List.isPrefixOf_iff_prefix,
            List.any_eq_true] at hkept ⊢
          have habove : n.path <+: m.path := by
            rw [hpath]
            exact List.prefix_append _ _
          rcases hkept with hout | ⟨kept, hkept, hbelow⟩
          · exact .inl fun hp => hout (hp.trans habove)
          · rw [Bool.and_eq_true, List.isPrefixOf_iff_prefix] at hbelow
            refine .inr ⟨kept, hkept, ?_⟩
            rw [Bool.and_eq_true, List.isPrefixOf_iff_prefix]
            exact ⟨hbelow.1, habove.trans hbelow.2⟩
        sub := List.filter_subset_self _
        within := fun m hm _ hnot => by
          by_contra hp
          refine hnot (List.mem_filter.mpr ⟨hm, ?_⟩)
          rw [Bool.or_eq_true, Bool.not_eq_true', ← Bool.not_eq_true, List.isPrefixOf_iff_prefix]
          exact .inl hp
        takes := fun hok => by cases hok
        count := fun hok => by cases hok
        ok := fun habsent => absurd (habsent.removeAll t p) (by simp [hfault]) }

theorem outcome_removeDirs (ps : List Path) (h : t.Closed) :
    Outcome u faults t (fun m => ∃ p ∈ ps, p <+: m.path) (removeDirs u faults ps t) := by
  induction ps generalizing t with
  | nil => exact outcome_nothing h fun m _ _ hgone => by simp at hgone
  | cons p ps ih =>
    have hone := @outcome_removeDir u faults _ h p
    refine (hone.andThen fun _ => ih hone.closed).congr fun m _ _ => ?_
    rw [List.exists_mem_cons_iff]

/-- Below a directory that was missing before it still is, for what is left. -/
theorem isMissing_iff (h₀ : t₀.Closed) (h : t.Closed) (hsub : t ⊆ t₀) {m : Node Text} (hm : m ∈ t)
    (hfile : m.isDir = false) {p : Path} (hp : p <+: m.path) :
    IsMissing t e p ↔ IsMissing t₀ e p := by
  constructor
  · rintro ⟨n, hn, hmissing⟩
    exact ⟨n, hsub hn, hmissing⟩
  · rintro ⟨n, hn, hdir, hlisted, hname, rfl⟩
    have hne : n.path ≠ m.path := by
      intro heq
      rw [h₀.eq_of_path hn (hsub hm) heq, hfile] at hdir
      cases hdir
    rcases h.isDir_of_prefix_path hm hp hne with hnil | ⟨n', hn', -, hpath⟩
    · exact absurd hnil n.path_ne_nil
    · rw [h₀.eq_of_path (hsub hn') hn hpath] at hn'
      exact ⟨n, hn', hdir, hlisted, hname, rfl⟩

theorem outcome_missing (h₀ : t₀.Closed) (listed : List (Path × List Text))
    (hsome : ∀ e ∈ listed, s.missingChildren faults.dryRun t₀ e.1 e.2 ≠ none) (h : t.Closed)
    (hsub : t ⊆ t₀) :
    Outcome u faults t (fun m => ∃ e ∈ listed, ∃ p, IsMissing t₀ e p ∧ p <+: m.path)
      (s.cleanupMissingRemoteChildDirs u faults listed t) := by
  induction listed generalizing t with
  | nil => exact outcome_nothing h fun m _ _ hgone => by simp at hgone
  | cons e listed ih =>
    have hsome' := fun e' he' => hsome e' (List.mem_cons_of_mem e he')
    have hdry := hsome e List.mem_cons_self
    unfold Scan.cleanupMissingRemoteChildDirs
    split_ifs with hsize
    · refine (ih hsome' h hsub).congr fun m _ _ => ?_
      rw [List.exists_mem_cons_iff, or_iff_right]
      rintro ⟨p, hp, -⟩
      exact not_isMissing_of_oversized h₀ hsize hdry p hp
    · rw [Bool.not_eq_true] at hsize
      cases hdirs : s.missingChildren (faults.read t) t e.1 e.2 with
      | none =>
        refine outcome_failed h fun habsent => ?_
        exact missingChildren_ne_none h₀ h hsub hsize hdry (habsent.read t) hdirs
      | some dirs =>
        have hone := @outcome_removeDirs u faults _ dirs h
        refine (hone.andThen fun _ => ih hsome' hone.closed
          (List.Subset.trans hone.sub hsub)).congr fun m hm hstrm => ?_
        rw [List.exists_mem_cons_iff]
        refine or_congr_left (exists_congr fun p => ?_)
        rw [mem_missingChildren h hdirs]
        exact and_congr_left fun hp =>
          isMissing_iff h₀ h hsub hm (isStrmFile_iff.mp hstrm).1 hp

end Missing

/-! ### The protection -/

section Protection

variable {u : UnicodeCase} {faults : Faults} {s : Scan} {t : Tree}

/-- The dry run gathers what goes. -/
theorem staleSet_eq_some (h : t.Closed) {scopes : List CleanupScope} {paths : List Path}
    (hset : s.staleSet u faults t scopes = some paths) :
    (∀ scope ∈ scopes, s.readScope faults.dryRun t scope ≠ .failed) ∧ paths.Nodup ∧
      ∀ p, p ∈ paths ↔
        ∃ n ∈ t, n.path = p ∧ s.isStale u n ∧ ∃ scope ∈ scopes, s.InScope scope n := by
  induction scopes generalizing paths with
  | nil =>
    cases hset
    exact ⟨fun _ hsc => (List.not_mem_nil hsc).elim, .nil, fun p => by simp⟩
  | cons scope scopes ih =>
    unfold Scan.staleSet at hset
    cases hcase : s.readScope faults.dryRun t scope with
    | failed => rw [hcase] at hset; cases hset
    | skipped =>
      rw [hcase] at hset
      obtain ⟨hread, hnodup, hmem⟩ := ih hset
      refine ⟨List.forall_mem_cons.mpr ⟨by simp [hcase], hread⟩, hnodup, fun p => ?_⟩
      rw [hmem]
      refine exists_congr fun n => and_congr_right fun hn => ?_
      rw [List.exists_mem_cons_iff, or_iff_right (not_inScope_of_skipped h hcase hn)]
    | read nodes =>
      rw [hcase] at hset
      obtain ⟨more, hmore, rfl⟩ := Option.map_eq_some_iff.mp hset
      obtain ⟨hread, hnodup, hmem⟩ := ih hmore
      refine ⟨List.forall_mem_cons.mpr ⟨by simp [hcase], hread⟩, hnodup.union _, fun p => ?_⟩
      obtain ⟨-, hnodes⟩ := mem_of_read h hcase
      rw [List.mem_union_iff, hmem, List.mem_map]
      constructor
      · rintro (⟨n, hn, hpath⟩ | ⟨n, hn, hpath, hstale, scope', hscope', hin⟩)
        · obtain ⟨hn, hstale⟩ := List.mem_filter.mp hn
          have hfile := (isStrmFile_iff.mp (isStrmFile_of_isStale hstale)).1
          obtain ⟨hnt, hin⟩ := (hnodes n hfile).mp hn
          exact ⟨n, hnt, hpath, hstale, scope, List.mem_cons_self, hin⟩
        · exact ⟨n, hn, hpath, hstale, scope', List.mem_cons_of_mem _ hscope', hin⟩
      · rintro ⟨n, hn, hpath, hstale, scope', hscope', hin⟩
        rcases List.mem_cons.mp hscope' with rfl | hscope'
        · have hfile : n.isDir = false := by
            simp only [Scan.isStale, Bool.and_eq_true] at hstale
            exact (isStrmFile_iff.mp hstale.1.1).1
          exact .inl ⟨n, List.mem_filter.mpr ⟨(hnodes n hfile).mpr ⟨hn, hin⟩, hstale⟩, hpath⟩
        · exact .inr ⟨n, hn, hpath, hstale, scope', hscope', hin⟩

/-- What the dry run of an automatic scan has counted. -/
theorem protectReason_eq_some (henabled : s.cleanupEnabled = true)
    (hauto : s.manualCleanupConfirm = false) {stopped : Bool}
    (hreason : s.protectReason u faults t = some stopped) :
    (s.cleanupBlocked = true ∧ stopped = true) ∨ ∃ stale dirs : List Path,
      s.staleSet u faults t s.cleanupScopes = some stale ∧
      s.missingDirs faults t s.remoteChildren = some dirs ∧
      (stopped = true ↔
        strmDeleteThreshold ≤ stale.length ∨ dirDeleteThreshold ≤ dirs.length) := by
  simp only [Scan.protectReason, henabled, hauto, Bool.not_true, Bool.false_eq_true, if_false]
    at hreason
  split_ifs at hreason with hblocked
  · exact .inl ⟨hblocked, (Option.some.inj hreason).symm⟩
  · obtain ⟨imp, himp, hstopped⟩ := Option.map_eq_some_iff.mp hreason
    obtain ⟨stale, hstale, himp⟩ := Option.bind_eq_some_iff.mp himp
    obtain ⟨dirs, hdirs, rfl⟩ := Option.map_eq_some_iff.mp himp
    refine .inr ⟨stale, dirs, hstale, hdirs, ?_⟩
    rw [← hstopped, Bool.or_eq_true, decide_eq_true_iff, decide_eq_true_iff]

/-- What the dry run has gathered is below the thresholds, neither seen nor below a skipped
directory, and of the `.strm` files just what is there goes. A failure leaves some of it. -/
structure Cleared (u : UnicodeCase) (faults : Faults) (s : Scan) (t : Tree)
    (stale dirs : List Path) (r : Cleaned) : Prop where
  nodup : stale.Nodup
  few : stale.length < strmDeleteThreshold ∧ dirs.length < dirDeleteThreshold
  unseen : ∀ p ∈ stale, p ∉ s.seen ∧ isStrmUnderSkipped s.skippedDirs p = false
  missing : ∀ d ∈ dirs, ∃ e ∈ s.remoteChildren, IsMissing t e d
  sub : r.tree ⊆ t
  within : ∀ n ∈ t, isStrmFile u n → n ∉ r.tree → n.path ∈ stale ∨ ∃ d ∈ dirs, d <+: n.path
  takes : r.failed = false →
    ∀ n ∈ t, isStrmFile u n → (n.path ∈ stale ∨ ∃ d ∈ dirs, d <+: n.path) → n ∉ r.tree
  count : r.failed = false → strmCount u r.tree + r.removed = strmCount u t
  uncounted : r.failed = true → r.removed = 0
  ok : faults.Absent → r.failed = false

/-- The clean-up goes through with what the dry run has gathered. -/
theorem cleared_syncAndCleanup (h : t.Closed) (henabled : s.cleanupEnabled = true)
    {stale dirs : List Path} (hstale : s.staleSet u faults t s.cleanupScopes = some stale)
    (hdirs : s.missingDirs faults t s.remoteChildren = some dirs)
    (hfew : stale.length < strmDeleteThreshold ∧ dirs.length < dirDeleteThreshold) :
    Cleared u faults s t stale dirs (s.syncAndCleanup u faults t) := by
  obtain ⟨hread, hnodup, hstaleMem⟩ := staleSet_eq_some h hstale
  obtain ⟨hsome, hdirsMem⟩ := mem_missingDirs h hdirs
  have hfiles := outcome_scopes (u := u) h s.cleanupScopes hread h (List.Subset.refl t)
  have hall := hfiles.andThen fun _ =>
    outcome_missing (s := s) h s.remoteChildren hsome hfiles.closed hfiles.sub
  have hgone : ∀ n ∈ t, isStrmFile u n →
      ((s.isStale u n ∧ ∃ scope ∈ s.cleanupScopes, s.InScope scope n) ∨
          (∃ e ∈ s.remoteChildren, ∃ p, IsMissing t e p ∧ p <+: n.path) ↔
        n.path ∈ stale ∨ ∃ d ∈ dirs, d <+: n.path) := by
    intro n hn _
    refine or_congr ?_ ?_
    · rw [hstaleMem]
      constructor
      · exact fun hgone => ⟨n, hn, rfl, hgone⟩
      · rintro ⟨n', hn', hpath, hgone⟩
        rwa [h.eq_of_path hn' hn hpath] at hgone
    · constructor
      · rintro ⟨e, he, p, hp, hprefix⟩
        exact ⟨p, (hdirsMem p).mpr ⟨e, he, hp⟩, hprefix⟩
      · rintro ⟨p, hp, hprefix⟩
        obtain ⟨e, he, hp⟩ := (hdirsMem p).mp hp
        exact ⟨e, he, p, hp, hprefix⟩
  have hsync := hall.congr hgone
  have hunseen : ∀ p ∈ stale, p ∉ s.seen ∧ isStrmUnderSkipped s.skippedDirs p = false := by
    intro p hp
    obtain ⟨n, -, rfl, hn, -⟩ := (hstaleMem p).mp hp
    simp only [Scan.isStale, Bool.and_eq_true, decide_eq_true_iff, Bool.not_eq_true'] at hn
    exact ⟨hn.1.2, hn.2⟩
  have hmissing := fun d hd => (hdirsMem d).mp hd
  unfold Scan.syncAndCleanup
  simp only [henabled, Bool.not_true, Bool.false_eq_true, if_false]
  split_ifs with hfailed
  · exact
      { nodup := hnodup, few := hfew, unseen := hunseen, missing := hmissing
        sub := hsync.sub
        within := hsync.within
        takes := fun hok => absurd hok (by simp [hfailed])
        count := fun hok => absurd hok (by simp [hfailed])
        uncounted := fun _ => rfl
        ok := hsync.ok }
  · exact
      { nodup := hnodup, few := hfew, unseen := hunseen, missing := hmissing
        sub := hsync.sub
        within := hsync.within
        takes := hsync.takes
        count := hsync.count
        uncounted := fun hfail => absurd hfail hfailed
        ok := hsync.ok }

theorem finalizeScan_of_stopped {stopped : Bool}
    (hreason : s.protectReason u faults t = some stopped) :
    s.finalizeScan u faults t =
      (if stopped then { tree := t } else s.syncAndCleanup u faults t, stopped) := by
  rw [Scan.finalizeScan, hreason]
  cases stopped <;> rfl

/-- A folder with a file that is kept, a stale one with a sidecar, and a directory that is
missing. -/
def folder : Tree :=
  [⟨[], "a.strm".toList, false⟩, ⟨[], "b.strm".toList, false⟩, ⟨[], "b.nfo".toList, false⟩,
    ⟨[], "old".toList, true⟩, ⟨["old".toList], "c.strm".toList, false⟩]

def folderScan : Scan where
  cleanupScopes := [⟨[], false⟩]
  seen := [["a.strm".toList]]
  remoteChildren := [([], ["new".toList])]

/-- The sidecar cannot be removed. -/
def stuck : Faults where
  stale _ _ := some 1

end Protection

end AllInOneBackup.LitePan.Strm.Protection
