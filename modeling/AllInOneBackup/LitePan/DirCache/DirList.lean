import AllInOneBackup.LitePan.DirCache.Service

/-! The cached listings: `DirList` and the item that a create puts into one. `strings.EqualFold` and
`strings.ToLower` are parameters; nothing depends on what they take for the same letter. -/

namespace AllInOneBackup.LitePan.DirCache

inductive IDKind
  | stable
  | path
  deriving DecidableEq

structure FileItem where
  id : Str
  name : Str
  size : ℤ := 0
  isDir : Bool := false
  modTime : ℤ := 0
  hash : List (Str × Str) := []
  thumb : Str := []
  idKind : IDKind := .stable
  deriving DecidableEq

abbrev DirList := List FileItem

section Names

variable (equalFold : Str → Str → Bool) (toLower : Str → Str)

/-- `sort.Slice` by directories first, then the names in lower case; it leaves the order of equal
ones open. -/
def sortDirList (list : DirList) : DirList :=
  let less (a b : FileItem) : Bool :=
    if a.isDir ≠ b.isDir then a.isDir else toLower a.name < toLower b.name
  list.mergeSort fun a b => !less b a

/-- The items that an upsert of `item` drops. -/
def replacedBy (item cur : FileItem) : Bool :=
  cur.id = item.id || !item.isDir && !cur.isDir && equalFold cur.name item.name

def upsertDirListItem (list : DirList) (item : FileItem) : DirList :=
  sortDirList toLower (list.filter (fun cur => !replacedBy equalFold item cur) ++ [item])

end Names

/-- The item of a create. -/
def FileMutated.item (e : FileMutated) : FileItem :=
  { id := e.fileId, name := e.fileName, size := e.fileSize, isDir := e.isDir, modTime := e.modTime }

/-- The cache of the listings, of which a create upserts its item. -/
def listings (equalFold : Str → Str → Bool) (toLower : Str → Str) :
    Concurrency.System (State DirList) (Task DirList) Unit (Outcome DirList) Call :=
  system fun list e => upsertDirListItem equalFold toLower list e.item

variable {equalFold : Str → Str → Bool} {toLower : Str → Str} {list : DirList} {item x : FileItem}

theorem mem_upsertDirListItem : x ∈ upsertDirListItem equalFold toLower list item ↔
    x ∈ list ∧ replacedBy equalFold item x = false ∨ x = item := by
  rw [upsertDirListItem, sortDirList, List.mem_mergeSort, List.mem_append, List.mem_filter,
    List.mem_singleton, Bool.not_eq_true']

end AllInOneBackup.LitePan.DirCache
