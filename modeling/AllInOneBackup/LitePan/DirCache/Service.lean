import AllInOneBackup.LitePan.Singleflight
import Mathlib.Algebra.Group.Int.Defs

/-! The directory cache: `file.Service.List` through `GetOrLoad`, and the mutations that
`ApplyMutation` takes. The cache, the fence of the cooling directories and the group of the
flights each have their own lock, so a list and a mutation meet between any two of them. -/

namespace AllInOneBackup.LitePan.DirCache

open Concurrency Singleflight

abbrev Str := List Char

/-! ### Directories -/

/-- `unicode.IsSpace`. -/
def isSpace (c : Char) : Bool :=
  c.toNat ∈ [0x9, 0xA, 0xB, 0xC, 0xD, 0x20, 0x85, 0xA0, 0x1680, 0x2028, 0x2029, 0x202F, 0x205F,
    0x3000] || 0x2000 ≤ c.toNat && c.toNat ≤ 0x200A

def trimSpace (s : Str) : Str := ((s.dropWhile isSpace).reverse.dropWhile isSpace).reverse

def normalizeDirParentID (parentID : Str) : Str :=
  let p := trimSpace parentID
  if p = [] ∨ p = ['0'] ∨ p = ['/'] ∨ p.map Char.toLower = ['r', 'o', 'o', 't'] then [] else p

/-- What `DirKey` and `dirCoolKey` write, a key for each account and normalized id. -/
structure Dir where
  accountId : ℤ
  parentId : Str
  deriving DecidableEq

def dirKey (accountId : ℤ) (parentID : Str) : Dir := ⟨accountId, normalizeDirParentID parentID⟩

/-! ### The cache -/

/-- A listing; how many deletes, renames and moves had been applied to the directory when its
driver call began; and whether the directory was cooling when that call returned. -/
structure Fetch (L : Type) where
  list : L
  startedAfter : ℕ
  cooled : Bool

structure Entry (L : Type) where
  value : Fetch L
  expiresAt : Option ℤ

/-- The entries of directories in the cache, the fence, the flights, the time in nanoseconds,
and how many deletes, renames and moves have been applied to each directory. -/
structure State (L : Type) where
  items : Dir → Option (Entry L) := fun _ => none
  coolUntil : Dir → Option ℤ := fun _ => none
  sf : Group Dir (Option (Fetch L)) := {}
  now : ℤ := 0
  applied : Dir → ℕ := fun _ => 0

/-- `dirMutationCooling`. -/
def dirMutationCooling : ℤ := 3 * 10 ^ 9

namespace State

variable {L : Type} (s : State L)

def lookup (dir : Dir) : Option (Fetch L) × State L :=
  match s.items dir with
  | none => (none, s)
  | some e =>
    if e.expiresAt.elim false fun t => s.now > t then
      (none, { s with items := Function.update s.items dir none })
    else (some e.value, s)

def set (dir : Dir) (value : Fetch L) (ttl : ℤ) : State L :=
  let expiresAt := if ttl > 0 then some (s.now + ttl) else none
  { s with items := Function.update s.items dir (some ⟨value, expiresAt⟩) }

/-- `RemainingTTL`; zero for an entry that does not expire. -/
def remainingTTL (dir : Dir) : Option ℤ :=
  (s.items dir).bind fun e => match e.expiresAt with
    | none => some 0
    | some t => if t - s.now ≤ 0 then none else some (t - s.now)

def invalidateKey (dir : Dir) : State L := { s with items := Function.update s.items dir none }

/-- The directories' part of `InvalidateAccount`. -/
def invalidateAccount (accountId : ℤ) : State L :=
  { s with items := fun dir => if dir.accountId = accountId then none else s.items dir }

def isCooling (dir : Dir) : Bool := (s.coolUntil dir).elim false fun t => s.now < t

/-- `mutationFence.cooling`. -/
def cooling (dir : Dir) : Bool × State L :=
  if s.isCooling dir then (true, s)
  else (false, { s with coolUntil := Function.update s.coolUntil dir none })

/-- `mutationFence.mark`. -/
def mark (dirs : List Dir) : State L :=
  { s with coolUntil := fun dir =>
      if dir ∈ dirs then some (s.now + dirMutationCooling) else s.coolUntil dir }

/-- `mutationFence.clear`. -/
def clear (dir : Dir) : State L := { s with coolUntil := Function.update s.coolUntil dir none }

end State

/-! ### Mutations -/

/-- `Op`; whatever has no case of its own is `other`. -/
inductive Op
  | create
  | delete
  | rename
  | move
  | copy
  | other
  deriving DecidableEq

structure FileMutated where
  accountId : ℤ
  op : Op
  parentId : Str
  oldParentId : Str := []
  fileId : Str := []
  fileName : Str := []
  fileSize : ℤ := 0
  isDir : Bool := false
  /-- Or the time that a create reads in its place, where it is zero. -/
  modTime : ℤ := 0

namespace FileMutated

variable (e : FileMutated)

def dir : Dir := dirKey e.accountId e.parentId

/-- The `parentIDs` of a mutation that is not a create. -/
def parentDirs : List Dir :=
  if (e.op = .move ∨ e.op = .copy) ∧ e.oldParentId ≠ e.parentId then
    [e.dir, dirKey e.accountId e.oldParentId]
  else [e.dir]

end FileMutated

/-- The mutation takes something out of a directory, or gives it another name. -/
def Op.removes : Op → Bool
  | .delete | .rename | .move => true
  | .create | .copy | .other => false

/-! ### Tasks -/

/-- Where a `List` stands: before the invalidation of a forced refresh, before its cooling check,
in a call to the driver past the cache, before the lookup and the flight of `GetOrLoad`, waiting;
or, as the leader of the flight `c`, before the second lookup, before the loader's cooling check,
before the driver call, in it, before `Set`, and before the three ends of the flight. Then where
an `ApplyMutation` stands: before `Get`, `RemainingTTL` and `Set` of a create and the end of its
cooling, before the invalidation of a directory, before `mark`, and before `InvalidateAccount`. -/
inductive Task (L : Type)
  | refreshing (dir : Dir) (ttl : ℤ)
  | checking (dir : Dir) (ttl : ℤ)
  | direct (dir : Dir)
  | looking (dir : Dir) (ttl : ℤ)
  | entering (dir : Dir) (ttl : ℤ)
  | waiting (c : ℕ)
  | lookingAgain (dir : Dir) (ttl : ℤ) (c : ℕ)
  | loading (dir : Dir) (ttl : ℤ) (c : ℕ)
  | calling (dir : Dir) (ttl : ℤ) (c : ℕ)
  | listing (dir : Dir) (ttl : ℤ) (c startedAfter : ℕ)
  | setting (dir : Dir) (ttl : ℤ) (c : ℕ) (value : Fetch L)
  | completing (dir : Dir) (c : ℕ) (v : Option (Fetch L))
  | closing (dir : Dir) (c : ℕ)
  | deleting (dir : Dir) (c : ℕ)
  | upserting (e : FileMutated)
  | upsertTTL (e : FileMutated) (updated : Fetch L)
  | upsertSet (e : FileMutated) (updated : Fetch L) (ttl : ℤ)
  | clearing (dir : Dir)
  | invalidating (removes : Bool) (dir : Dir) (todo dirs : List Dir)
  | marking (removes : Bool) (dirs : List Dir)
  | sweeping (accountId : ℤ)
  | finished

/-- A turn that goes on, the return of the driver with a list or an error, and `ctx.Done()`. -/
inductive Outcome (L : Type)
  | turn
  | listed (list : Option L)
  | ctxDone

/-- The beginning of a `List` and of an `ApplyMutation`, the passing of time, and the removal of an
entry by an eviction, a sweep or another invalidation. -/
inductive Call
  | list (accountId : ℤ) (parentID : Str) (ttl : ℤ) (forceRefresh : Bool)
  | applyMutation (e : FileMutated)
  | tick (n : ℕ)
  | remove (dir : Dir)

section System

variable {L : Type} (upsertDirListItem : L → FileMutated → L)

abbrev CacheTurn (L : Type) := Turn (State L) (Task L) Unit

abbrev CachePool (L : Type) := Pool (State L) (Task L) Unit

/-- `invalidateMutationDirs` from the next directory on. -/
def invalidateMutationDirs (removes : Bool) (dirs : List Dir) : List Dir → Task L
  | [] => .marking removes dirs
  | dir :: todo => .invalidating removes dir todo dirs

/-- `GetOrLoad` takes the entry of a flight, or a new one. -/
def enter (s : State L) (dir : Dir) (ttl : ℤ) : CacheTurn L :=
  let flight := s.sf.enter dir
  { shared := { s with sf := flight.shared }
    task := match flight.task with
      | .running _ c => .lookingAgain dir ttl c
      | .waiting c => .waiting c
      | _ => .finished }

def resumeList (s : State L) : Task L → Outcome L → Option (CacheTurn L)
  | .refreshing dir ttl, .turn =>
    some { shared := s.invalidateKey dir, task := .checking dir ttl }
  | .checking dir ttl, .turn => some <|
    if ttl ≤ 0 then { shared := s, task := .direct dir }
    else match s.cooling dir with
      | (true, s) => { shared := s, task := .direct dir }
      | (false, s) => { shared := s, task := .looking dir ttl }
  | .direct _, .listed _ => some { shared := s, task := .finished }
  | .looking dir ttl, .turn => some <|
    match s.lookup dir with
    | (some _, s) => { shared := s, task := .finished }
    | (none, s) => { shared := s, task := .entering dir ttl }
  | .entering dir ttl, .turn => some (enter s dir ttl)
  | .waiting c, .turn =>
    if (s.sf.calls[c]?.map Singleflight.Call.done) = some true then
      some { shared := s, task := .finished } else none
  | .waiting _, .ctxDone => some { shared := s, task := .finished }
  | .lookingAgain dir ttl c, .turn => some <|
    match s.lookup dir with
    | (some v, s) => { shared := s, task := .completing dir c (some v) }
    | (none, s) => { shared := s, task := .loading dir ttl c }
  -- both branches of the loader call the driver, and `GetOrLoad` sets what either returns
  | .loading dir ttl c, .turn =>
    some { shared := (s.cooling dir).2, task := .calling dir ttl c }
  | .calling dir ttl c, .turn =>
    some { shared := s, task := .listing dir ttl c (s.applied dir) }
  | .listing dir ttl c startedAfter, .listed (some list) =>
    some { shared := s, task := .setting dir ttl c ⟨list, startedAfter, s.isCooling dir⟩ }
  | .listing dir _ c _, .listed none => some { shared := s, task := .completing dir c none }
  | .setting dir ttl c value, .turn =>
    some { shared := s.set dir value ttl, task := .completing dir c (some value) }
  | .completing dir c v, .turn =>
    some { shared := { s with sf := s.sf.complete c v }, task := .closing dir c }
  | .closing dir c, .turn =>
    some { shared := { s with sf := s.sf.close c }, task := .deleting dir c }
  | .deleting dir _, .turn =>
    some { shared := { s with sf := s.sf.delete dir }, task := .finished }
  | _, _ => none

def resumeMutation (s : State L) : Task L → Option (CacheTurn L)
  | .upserting e => some <|
    if e.fileId = [] ∨ e.fileName = [] then
      { shared := s, task := invalidateMutationDirs false [e.dir] [e.dir] }
    else match s.lookup e.dir with
      | (none, s) => { shared := s, task := invalidateMutationDirs false [e.dir] [e.dir] }
      | (some v, s) =>
        { shared := s, task := .upsertTTL e { v with list := upsertDirListItem v.list e } }
  | .upsertTTL e updated => some <|
    match s.remainingTTL e.dir with
    | none => { shared := s, task := invalidateMutationDirs false [e.dir] [e.dir] }
    | some ttl => { shared := s, task := .upsertSet e updated ttl }
  | .upsertSet e updated ttl =>
    some { shared := s.set e.dir updated ttl, task := .clearing e.dir }
  | .clearing dir => some { shared := s.clear dir, task := .finished }
  | .invalidating removes dir todo dirs =>
    some { shared := s.invalidateKey dir, task := invalidateMutationDirs removes dirs todo }
  | .marking removes dirs =>
    let applied (dir : Dir) := s.applied dir + if removes ∧ dir ∈ dirs then 1 else 0
    some { shared := { s.mark dirs with applied }, task := .finished }
  | .sweeping accountId => some { shared := s.invalidateAccount accountId, task := .finished }
  | _ => none

def resume (s : State L) (t : Task L) (o : Outcome L) : Option (CacheTurn L) :=
  match o with
  | .turn => (resumeList s t o).or (resumeMutation upsertDirListItem s t)
  | _ => resumeList s t o

def event (s : State L) : Call → Option (Effect (State L) (Task L) Unit)
  | .list accountId parentID ttl forceRefresh =>
    let dir := dirKey accountId parentID
    some { shared := s, spawned := [if forceRefresh then .refreshing dir ttl else .checking dir ttl] }
  | .applyMutation e =>
    let task := match e.op with
      | .create => .upserting e
      | .delete | .rename | .move | .copy =>
        invalidateMutationDirs e.op.removes e.parentDirs e.parentDirs
      | .other => .sweeping e.accountId
    some { shared := s, spawned := [task] }
  | .tick n => some { shared := { s with now := s.now + n } }
  | .remove dir => some { shared := s.invalidateKey dir }

def system : System (State L) (Task L) Unit (Outcome L) Call := ⟨resume upsertDirListItem, event⟩

def initial : CachePool L := { shared := {} }

end System

end AllInOneBackup.LitePan.DirCache
