import AllInOneBackup.Concurrency.Pool
import AllInOneBackup.Data.Bytes
import Mathlib.Data.List.AList
import Mathlib.Data.List.Sort

/-! `DiskCache`. An entry is a file with its data and a file with its metadata, and the table in
memory points to the metadata of all entries. Each rename and each remove is a turn of its own, so
a process that dies between two turns leaves what the last one left; `restart` is the next process,
which reads the table back from the files. -/

namespace AllInOneBackup.PanSou.DiskCache

open Concurrency

variable {K F : Type} [DecidableEq K] [DecidableEq F]

/-- A Go map, or a directory. -/
abbrev Table (α β : Type) := AList fun _ : α => β

theorem eq_of_lookup_insert {α β : Type} [DecidableEq α] {t : Table α β} {a : α} {b c : β}
    (h : (t.insert a b).lookup a = some c) : b = c := by
  rw [AList.lookup_insert] at h
  exact Option.some.inj h

theorem lookup_of_lookup_erase {α β : Type} [DecidableEq α] {t : Table α β} {a k : α} {b : β}
    (h : (t.erase a).lookup k = some b) : t.lookup k = some b := by
  rcases eq_or_ne k a with rfl | hne
  · rw [AList.lookup_erase] at h
    cases h
  · rwa [AList.lookup_erase_ne hne] at h

/-- `diskCacheMetadata`. -/
structure Metadata (K : Type) where
  key : K
  expiry : ℤ
  lastUsed : ℤ
  size : ℕ
  lastModified : ℤ
  deriving DecidableEq

/-- The cache directory, `DiskCache` with the metadata it has pointed to, and the clock. `process`
counts the processes that have used the directory. -/
structure Cache (K F : Type) where
  dataFiles : Table F Bytes := ∅
  metaFiles : Table F (Metadata K) := ∅
  maxSize : ℤ
  metadata : Table K ℕ := ∅
  objects : List (Metadata K) := []
  currSize : ℤ := 0
  mutex : Bool := false
  now : ℤ := 0
  process : ℕ := 0

/-- An entry that is to be removed. -/
structure Item (K : Type) where
  key : K
  size : ℕ
  deriving DecidableEq

/-- Who removes entries: `evictLRU` in a `Set`, or `cleanExpired`. -/
inductive Sweep (K : Type)
  | evictLRU (key : K) (data : Bytes) (ttl : ℤ)
  | cleanExpired

/-- Where a call stands. `set`, `get`, `delete` and `clean` have not locked yet. A `Set` goes on
with `writing` its data, `stamping` and `saving` the metadata; a `Get` with the check of the expiry,
`reading` the file and `touching` the metadata; `deleting` is between the two files, and so is
`sweepingMeta` in a sweep. -/
inductive Point (K : Type)
  | set (key : K) (data : Bytes) (ttl : ℤ)
  | sweeping (sweep : Sweep K) (items : List (Item K))
  | sweepingMeta (sweep : Sweep K) (item : Item K) (items : List (Item K))
  | writing (key : K) (data : Bytes) (ttl : ℤ)
  | stamping (key : K) (data : Bytes) (ttl : ℤ)
  | saving (key : K) (data : Bytes) (m : Metadata K)
  | undoing (key : K)
  | get (key : K)
  | checking (key : K) (object : ℕ)
  | reading (key : K) (object : ℕ)
  | touching (key : K) (object : ℕ) (data : Bytes)
  | delete (key : K)
  | deleting (key : K) (object : ℕ)
  | clean
  | returned

/-- A call, and the process it belongs to. -/
structure Call (K : Type) where
  process : ℕ
  point : Point K

/-- A turn that goes on, with the order in which `range` goes through the table, and what a file
operation returns; a remove of what is not there returns no error that counts. -/
inductive Outcome (K : Type)
  | turn
  | range (entries : List (Sigma fun _ : K => ℕ))
  | ok
  | failed

/-- An observer sees the metadata that a `Set` makes for its data, and the returns of `Delete`. -/
inductive Event (K : Type)
  | made (key : K) (data : Bytes) (expiry : ℤ)
  | deleted (key : K)

abbrev CacheTurn (K F : Type) := Turn (Cache K F) (Call K) (Event K)

abbrev CachePool (K F : Type) := Pool (Cache K F) (Call K) (Event K)

/-- A call by the program, the periodic cleanup, the clock, or the next process. -/
inductive External (K : Type)
  | set (key : K) (data : Bytes) (ttl : ℤ)
  | get (key : K)
  | delete (key : K)
  | clean
  | tick (d : ℕ)
  | restart

/-- `time.Now().After(t)`. -/
def Cache.after (s : Cache K F) (t : ℤ) : Prop := t < s.now

instance (s : Cache K F) (t : ℤ) : Decidable (s.after t) := inferInstanceAs (Decidable (t < s.now))

namespace Cache

section Operations

variable (getFilename : K → F) (s : Cache K F)

/-- The metadata that the table has for the key. -/
def entry (key : K) : Option (Metadata K) := (s.metadata.lookup key).bind fun r => s.objects[r]?

/-- The entries of the table, in the order of `range`. -/
def items (entries : List (Sigma fun _ : K => ℕ)) : List (K × Metadata K) :=
  entries.filterMap fun e => s.objects[e.2]?.map fun m => (e.1, m)

/-- The items of `evictLRU`, the longest unused first. -/
def leastRecentlyUsed (entries : List (Sigma fun _ : K => ℕ)) : List (Item K) :=
  ((s.items entries).insertionSort fun a b => a.2.lastUsed ≤ b.2.lastUsed).map
    fun e => ⟨e.1, e.2.size⟩

/-- What `cleanExpired` removes. -/
def expired (entries : List (Sigma fun _ : K => ℕ)) : List (Item K) :=
  ((s.items entries).filter fun e => s.after e.2.expiry).map fun e => ⟨e.1, e.2.size⟩

/-- `os.Remove` of the data file. -/
def removeData (key : K) : Cache K F := { s with dataFiles := s.dataFiles.erase (getFilename key) }

/-- `os.Remove` of the metadata file. -/
def removeMeta (key : K) : Cache K F := { s with metaFiles := s.metaFiles.erase (getFilename key) }

/-- `writeFileAtomic` of the data. -/
def writeData (key : K) (data : Bytes) : Cache K F :=
  { s with dataFiles := s.dataFiles.insert (getFilename key) data }

/-- `saveMetadata`. -/
def saveMetadata (key : K) (m : Metadata K) : Cache K F :=
  { s with metaFiles := s.metaFiles.insert (getFilename key) m }

/-- The entry leaves the table. -/
def drop (key : K) (size : ℕ) : Cache K F :=
  { s with currSize := s.currSize - size, metadata := s.metadata.erase key }

/-- The entry that a `Set` has made comes into the table. -/
def add (key : K) (m : Metadata K) : Cache K F :=
  { s with
    metadata := s.metadata.insert key s.objects.length
    objects := s.objects ++ [m]
    currSize := s.currSize + m.size }

def lock : Cache K F := { s with mutex := true }

def unlock : Cache K F := { s with mutex := false }

/-- `meta.LastUsed = time.Now()`. -/
def touch (object : ℕ) : Cache K F :=
  { s with objects := s.objects.modify object fun m => { m with lastUsed := s.now } }

/-- `loadMetadata`: one file of the directory. -/
def loadFile (file : F) : Cache K F :=
  match s.metaFiles.lookup file with
  | some m => s.add m.key m
  | none => s

/-- `NewDiskCache` on the directory that the last process has left, with an empty table. -/
def reopen : Cache K F :=
  { dataFiles := s.dataFiles, metaFiles := s.metaFiles, maxSize := s.maxSize, now := s.now
    process := s.process + 1 }

/-- `NewDiskCache` on that directory, with `loadMetadata`. -/
def restart : Cache K F := s.dataFiles.keys.foldl loadFile s.reopen

/-- What `Get` returns when nothing else happens. -/
def read (key : K) : Option (Bytes × Metadata K) :=
  (s.entry key).bind fun m =>
    if s.after m.expiry then none
    else (s.dataFiles.lookup (getFilename key)).map fun data => (data, m)

/-- `Set` from its lock to its first file operation. -/
def beginSet (key : K) (data : Bytes) (ttl : ℤ) (entries : List (Sigma fun _ : K => ℕ)) :
    Cache K F × Point K :=
  let s := { s.lock with currSize := s.currSize - ((s.entry key).map (·.size)).getD 0 }
  (s, if s.maxSize < s.currSize + data.length
    then .sweeping (.evictLRU key data ttl) (s.leastRecentlyUsed entries)
    else .writing key data ttl)

/-- Where a sweep goes on when it is over. -/
def endSweep : Sweep K → Cache K F × Point K
  | .evictLRU key data ttl => (s, .writing key data ttl)
  | .cleanExpired => (s.unlock, .returned)

/-- There is room for the data. -/
def fits : Sweep K → Prop
  | .evictLRU _ data _ => s.currSize + data.length ≤ s.maxSize
  | .cleanExpired => False

instance : ∀ sweep, Decidable (s.fits sweep)
  | .evictLRU _ _ _ => inferInstanceAs (Decidable (_ ≤ _))
  | .cleanExpired => .isFalse id

end Operations

end Cache

/-- What a turn of a call leaves. -/
def advance (getFilename : K → F) (s : Cache K F) :
    Point K → Outcome K → Option (Cache K F × Point K × List (Event K))
  | .set key data ttl, .range entries =>
    if s.mutex = false ∧ entries.Perm s.metadata.entries then
      let (s, point) := s.beginSet key data ttl entries
      some (s, point, [])
    else none
  | .sweeping sweep items, .turn =>
    if items = [] ∨ s.fits sweep then
      let (s, point) := s.endSweep sweep
      some (s, point, [])
    else none
  | .sweeping sweep (item :: items), .ok =>
    if s.fits sweep then none
    else some (s.removeData getFilename item.key, .sweepingMeta sweep item items, [])
  | .sweeping sweep (_ :: items), .failed =>
    if s.fits sweep then none else some (s, .sweeping sweep items, [])
  | .sweepingMeta sweep item items, .ok =>
    some ((s.removeMeta getFilename item.key).drop item.key item.size, .sweeping sweep items, [])
  | .sweepingMeta sweep item items, .failed =>
    some (s.drop item.key item.size, .sweeping sweep items, [])
  | .writing key data ttl, .ok =>
    some (s.writeData getFilename key data, .stamping key data ttl, [])
  | .writing _ _ _, .failed => some (s.unlock, .returned, [])
  | .stamping key data ttl, .turn =>
    some (s, .saving key data ⟨key, s.now + ttl, s.now, data.length, s.now⟩,
      [.made key data (s.now + ttl)])
  | .saving key _ m, .ok =>
    some (((s.saveMetadata getFilename key m).add key m).unlock, .returned, [])
  | .saving key _ _, .failed => some (s, .undoing key, [])
  | .undoing key, .ok => some ((s.removeData getFilename key).unlock, .returned, [])
  | .undoing _, .failed => some (s.unlock, .returned, [])
  | .get key, .turn =>
    if s.mutex then none
    else match s.metadata.lookup key with
      | none => some (s, .returned, [])
      | some object => some (s, .checking key object, [])
  | .checking key object, .turn => s.objects[object]?.map fun m =>
      (s, if s.after m.expiry then .delete key else .reading key object, [])
  | .reading key object, .ok => match s.dataFiles.lookup (getFilename key) with
      | none => some (s, .delete key, [])
      | some data => some (s, .touching key object data, [])
  | .reading _ _, .failed => some (s, .returned, [])
  | .touching key object _, o =>
    if s.mutex then none
    else (s.touch object).objects[object]?.bind fun m => match o with
      | .ok => some ((s.touch object).saveMetadata getFilename key m, .returned, [])
      | .failed => some (s.touch object, .returned, [])
      | _ => none
  | .delete key, o =>
    if s.mutex then none
    else match s.metadata.lookup key, o with
      | none, .turn => some (s, .returned, [.deleted key])
      | some object, .ok => some ((s.removeData getFilename key).lock, .deleting key object, [])
      | some object, .failed => some (s.lock, .deleting key object, [])
      | _, _ => none
  | .deleting key object, o => s.objects[object]?.bind fun m => match o with
      | .ok => some (((s.removeMeta getFilename key).drop key m.size).unlock, .returned,
          [.deleted key])
      | .failed => some ((s.drop key m.size).unlock, .returned, [.deleted key])
      | _ => none
  | .clean, .range entries =>
    if s.mutex = false ∧ entries.Perm s.metadata.entries then
      some (s.lock, .sweeping .cleanExpired (s.expired entries), [])
    else none
  | _, _ => none

/-- A call of an earlier process takes no turn. -/
def resume (getFilename : K → F) (s : Cache K F) (t : Call K) (o : Outcome K) :
    Option (CacheTurn K F) :=
  if t.process = s.process then
    (advance getFilename s t.point o).map fun r =>
      { shared := r.1, task := ⟨t.process, r.2.1⟩, seen := r.2.2 }
  else none

def event (s : Cache K F) : External K → Option (Effect (Cache K F) (Call K) (Event K))
  | .set key data ttl => some { shared := s, spawned := [⟨s.process, .set key data ttl⟩] }
  | .get key => some { shared := s, spawned := [⟨s.process, .get key⟩] }
  | .delete key => some { shared := s, spawned := [⟨s.process, .delete key⟩] }
  | .clean => some { shared := s, spawned := [⟨s.process, .clean⟩] }
  | .tick d => some { shared := { s with now := s.now + d } }
  | .restart => some { shared := s.restart }

def system (getFilename : K → F) : System (Cache K F) (Call K) (Event K) (Outcome K) (External K) :=
  ⟨resume getFilename, event⟩

/-- `NewDiskCache` on an empty directory. -/
def newDiskCache (maxSize : ℤ) : CachePool K F := { shared := { maxSize := maxSize } }

end AllInOneBackup.PanSou.DiskCache
