import AllInOneBackup.Data.PyText
import Mathlib.Data.List.Dedup

/-! When a task has moved its files away, the folders that held them are listed, the deepest first,
and what is empty is deleted; after a deletion the folder above is looked at once. -/

namespace AllInOneBackup.Cloud123.FolderCleanup

open Data

/-! ### Trees -/

/-- A file or a folder, with the ids of the folders above it, the nearest first. -/
structure Node where
  id : Text
  above : List Text
  isDir : Bool
  deriving DecidableEq

abbrev Tree := List Node

def entries (tree : Tree) (cid : Text) : List Node :=
  tree.filter fun n => n.above.head? = some cid

/-- A deletion takes all that is below. -/
def remove (tree : Tree) (cid : Text) : Tree :=
  tree.filter fun n => n.id ≠ cid ∧ cid ∉ n.above

/-! ### Requests -/

/-- The answer of `list_local_dir`: an error, what is there, or data that is not a list. -/
inductive Listing
  | failed
  | entries
  | malformed
  deriving DecidableEq

/-- The end of `delete_local_files`; the answer to a deletion that was made can be lost. -/
inductive Deletion
  | done
  | refused
  | lost
  deriving DecidableEq

/-- A request, with the tree at that time. -/
inductive Request
  | list (cid : Text) (tree : Tree) (answer : Listing)
  | delete (cid : Text) (tree : Tree) (answer : Deletion)

/-- The answers, by the number of the request. -/
structure Server where
  listing : ℕ → Listing
  deletion : ℕ → Deletion

structure State where
  tree : Tree
  deletedCids : List Text
  requests : List Request

/-! ### The cleanup -/

/-- An entry of `localDirMap`. -/
structure DirInfo where
  parentCid : Text
  path : List Text

structure Task where
  foldersToCleanup : List Text
  localDirMap : Text → Option DirInfo
  rootCid : Text

namespace Task

variable (task : Task)

def root : Text := PyText.strip task.rootCid

def depth (cid : Text) : ℕ := ((task.localDirMap cid).map fun info => info.path.length).getD 0

def parentCid (cid : Text) : Text :=
  PyText.strip (((task.localDirMap cid).map DirInfo.parentCid).getD [])

/-- The recorded folders, the deepest first. -/
def cidsToCheck : List Text :=
  ((task.foldersToCleanup.map PyText.strip).filter (· ≠ [])).dedup.mergeSort fun a b =>
    decide (task.depth b ≤ task.depth a)

end Task

variable (server : Server)

def listLocalDir (cid : Text) (s : State) : Option (List Node) × State :=
  let answer := server.listing s.requests.length
  let s' := { s with requests := s.requests ++ [.list cid s.tree answer] }
  match answer with
  | .failed => (none, s')
  | .entries => (some (entries s.tree cid), s')
  | .malformed => (some [], s')

/-- `delete_local_files` of one folder, and its place in `deleted_cids`. -/
def deleteLocalFiles (cid : Text) (s : State) : Bool × State :=
  let answer := server.deletion s.requests.length
  let requests := s.requests ++ [.delete cid s.tree answer]
  match answer with
  | .done => (true, ⟨remove s.tree cid, s.deletedCids ++ [cid], requests⟩)
  | .refused => (false, ⟨s.tree, s.deletedCids, requests⟩)
  | .lost => (false, ⟨remove s.tree cid, s.deletedCids, requests⟩)

/-- A folder is deleted when its listing has no items. -/
def checkFolder (cid : Text) (s : State) : Bool × State :=
  match listLocalDir server cid s with
  | (some [], s') => deleteLocalFiles server cid s'
  | (_, s') => (false, s')

/-- The loop's body for `cid`. -/
def cleanupFolder (task : Task) (s : State) (cid : Text) : State :=
  if cid = task.root ∨ cid ∈ s.deletedCids then s
  else
    let r := checkFolder server cid s
    if r.1 then
      let parentCid := task.parentCid cid
      if parentCid ≠ [] ∧ parentCid ≠ task.root ∧ parentCid ∉ r.2.deletedCids then
        (checkFolder server parentCid r.2).2
      else r.2
    else r.2

/-- `_cleanup_empty_local_folders`, with the setting `delete115AfterSuccess`. -/
def cleanupEmptyLocalFolders (delete115AfterSuccess : Bool) (task : Task) (tree : Tree) : State :=
  if delete115AfterSuccess = false ∨ task.root = [] then ⟨tree, [], []⟩
  else task.cidsToCheck.foldl (cleanupFolder server task) ⟨tree, [], []⟩

/-! ### Safety -/

namespace Request

/-- A deletion is of a folder other than the root, and nothing is in it. -/
def Safe (root : Text) : Request → Prop
  | .list _ _ _ => True
  | .delete cid tree _ => cid ≠ root ∧ entries tree cid = []

/-- Where the data is not a list, nothing is there. -/
def NotMisread : Request → Prop
  | .list cid tree answer => answer = .malformed → entries tree cid = []
  | .delete _ _ _ => True

def Succeeds : Request → Prop
  | .list _ _ answer => answer = .entries
  | .delete _ _ answer => answer = .done

end Request

variable {server : Server} {root cid : Text}

/-- A safe run is one in which no listing is misread. -/
def Faithful (root : Text) (requests : List Request) : Prop :=
  (∀ r ∈ requests, r.Safe root) ↔ ∀ r ∈ requests, r.NotMisread

theorem Faithful.append {a b : List Request} (ha : Faithful root a) (hb : Faithful root b) :
    Faithful root (a ++ b) := by
  rw [Faithful, List.forall_mem_append, List.forall_mem_append]
  exact and_congr ha hb

theorem faithful_nil : Faithful root [] :=
  iff_of_true (List.forall_mem_nil _) (List.forall_mem_nil _)

/-- What is asked for a folder: its listing, and where it has no items, its deletion. -/
theorem checkFolder_requests (server : Server) (cid : Text) (s : State) :
    (checkFolder server cid s).2.requests =
      s.requests ++ [.list cid s.tree (server.listing s.requests.length)] ∧
        (server.listing s.requests.length = .failed ∨
          server.listing s.requests.length = .entries ∧ entries s.tree cid ≠ []) ∨
    (∃ answer, (checkFolder server cid s).2.requests =
      s.requests ++ [.list cid s.tree (server.listing s.requests.length)] ++
        [.delete cid s.tree answer]) ∧
      (server.listing s.requests.length = .malformed ∨
        server.listing s.requests.length = .entries ∧ entries s.tree cid = []) := by
  have hdelete : ∀ s : State, ∃ answer, (deleteLocalFiles server cid s).2.requests =
      s.requests ++ [.delete cid s.tree answer] := by
    intro s
    refine ⟨server.deletion s.requests.length, ?_⟩
    rw [deleteLocalFiles]
    cases server.deletion s.requests.length <;> rfl
  rw [checkFolder, listLocalDir]
  cases server.listing s.requests.length with
  | failed => exact .inl ⟨rfl, .inl rfl⟩
  | entries =>
    cases hentries : entries s.tree cid with
    | nil => exact .inr ⟨hdelete _, .inr ⟨rfl, rfl⟩⟩
    | cons n ns => exact .inl ⟨rfl, .inr ⟨rfl, List.cons_ne_nil n ns⟩⟩
  | malformed => exact .inr ⟨hdelete _, .inl rfl⟩

theorem faithful_checkFolder {s : State} (h : Faithful root s.requests) (hroot : cid ≠ root) :
    Faithful root (checkFolder server cid s).2.requests := by
  obtain ⟨hrequests, hanswer⟩ | ⟨⟨answer, hrequests⟩, hanswer⟩ := checkFolder_requests server cid s
  · rw [hrequests]
    apply h.append
    refine iff_of_true (List.forall_mem_singleton.mpr trivial) (List.forall_mem_singleton.mpr ?_)
    rcases hanswer with hanswer | ⟨hanswer, -⟩ <;> simp [Request.NotMisread, hanswer]
  · rw [hrequests, List.append_assoc]
    apply h.append
    rw [Faithful, List.forall_mem_append, List.forall_mem_append]
    simp only [List.forall_mem_singleton, Request.Safe, Request.NotMisread, true_and, and_true]
    rcases hanswer with hanswer | ⟨hanswer, hnil⟩
    · simp [hanswer, hroot]
    · simp [hanswer, hroot, hnil]

theorem faithful_cleanupFolder {task : Task} {s : State} (h : Faithful task.root s.requests) :
    Faithful task.root (cleanupFolder server task s cid).requests := by
  rw [cleanupFolder]
  by_cases hskip : cid = task.root ∨ cid ∈ s.deletedCids
  · rwa [if_pos hskip]
  · have hroot : cid ≠ task.root := fun heq => hskip (.inl heq)
    have hself : Faithful task.root (checkFolder server cid s).2.requests :=
      faithful_checkFolder h hroot
    rw [if_neg hskip]
    simp only
    split_ifs with hdeleted hparent
    · exact faithful_checkFolder hself hparent.2.1
    · exact hself
    · exact hself

theorem faithful_cleanup (enabled : Bool) (task : Task) (tree : Tree) :
    Faithful task.root (cleanupEmptyLocalFolders server enabled task tree).requests := by
  rw [cleanupEmptyLocalFolders]
  split_ifs
  · exact faithful_nil
  · have hrun : ∀ (cids : List Text) (s : State), Faithful task.root s.requests →
        Faithful task.root (cids.foldl (cleanupFolder server task) s).requests := by
      intro cids
      induction cids with
      | nil => exact fun s h => h
      | cons cid cids ih => exact fun s h => ih _ (faithful_cleanupFolder h)
    exact hrun _ _ faithful_nil

end AllInOneBackup.Cloud123.FolderCleanup
