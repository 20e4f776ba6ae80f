import AllInOneBackup.Concurrency.Pool
import AllInOneBackup.LitePan.FuseReadCache.Store

/-! `Service.ReadAt` as tasks over the cache. A call holds the mutex for one load or one put at a
time and fetches without it, so loads, puts and fetches of other calls, invalidations and changed
settings may come in between. What the storage and the fetch do is an outcome of the turn. -/

namespace AllInOneBackup.LitePan.FuseReadCache

open Concurrency

/-- The arguments of a call of `ReadAt`; `len` is the length of `dest`. -/
structure Read where
  accountId : ℤ
  fileId : String
  len : ℕ
  off : ℕ
  deriving DecidableEq

namespace Read

variable (r : Read) (dest : Bytes)

/-- `curOff` when `dest` has been written. -/
def curOff : ℕ := r.off + dest.length

def blockIdx : ℕ := r.curOff dest / blockSize

def blockOff : ℕ := r.curOff dest % blockSize

def need : ℕ := min (r.len - dest.length) (blockSize - r.blockOff dest)

def key : BlockKey := ⟨r.accountId, r.fileId, r.blockIdx dest⟩

def fetchOff : ℕ := r.blockIdx dest * blockSize

/-- What is copied from the block that was fetched. -/
def copied (chunk : Bytes) : Bytes :=
  (chunk.drop (r.blockOff dest)).take (min (r.need dest) (chunk.length - r.blockOff dest))

end Read

/-- Where a call stands: before the lock of a load, in a fetch, before the lock of a put, or in
the fetch that passes a disabled cache. `dest` is what has been written, before the copy of the
block that is put; `startedAfter` counts the invalidations of the file when the fetch began. -/
inductive Task
  | loading (r : Read) (dest : Bytes)
  | fetching (r : Read) (dest : Bytes) (startedAfter : ℕ)
  | putting (r : Read) (dest chunk : Bytes) (err : Option Err) (startedAfter : ℕ)
  | passing (r : Read)
  | finished

inductive Outcome
  | locked (now : ℤ) (faults : Faults)
  | fetched (data : Bytes) (err : Option Err)

inductive Call
  | readAt (r : Read)
  | invalidateFile (accountId : ℤ) (fileId : String) (faults : Faults)
  | invalidateAccount (accountId : ℤ) (faults : Faults)
  | clearAll (now : ℤ) (faults : Faults)
  | updateSettings (cfg : Config)

/-- What an observer sees: what `ReadAt` returns, and the blocks that it stores, with the
invalidations of the file before the fetch began and before the put. -/
inductive Event
  | returned (r : Read) (data : Bytes) (err : Option Err)
  | stored (key : BlockKey) (startedAfter invalidations : ℕ)
  deriving DecidableEq

/-- The service, and how many calls of `InvalidateFile` have returned for each file. -/
structure State where
  service : Service
  invalidations : ℤ → String → ℕ := fun _ _ => 0

abbrev ReadTurn := Turn State Task Event

abbrev ReadPool := Pool State Task Event

namespace State

variable (s : State) (r : Read) (dest : Bytes)

def leave (data : Bytes) (err : Option Err) : ReadTurn :=
  { shared := s, task := .finished, seen := [.returned r data err] }

/-- The head of the loop of `ReadAt`. -/
def loop : ReadTurn :=
  if dest.length < r.len then { shared := s, task := .loading r dest } else s.leave r dest none

/-- The part of the loop under the first lock. -/
def load (now : ℤ) (faults : Faults) : ReadTurn :=
  let ((data, ok, err), store) :=
    s.service.store.loadBlockRange faults now (r.key dest) (r.blockOff dest) (r.need dest)
  let s := { s with service := { s.service with store } }
  if ok ∧ (err = none ∨ err = some .eof) then
    if data.length < r.need dest then s.leave r (dest ++ data) none else s.loop r (dest ++ data)
  else { shared := s, task := .fetching r dest (s.invalidations r.accountId r.fileId) }

/-- From the return of the fetch to the second lock. -/
def fetched (chunk : Bytes) (err : Option Err) (startedAfter : ℕ) : ReadTurn :=
  if chunk = [] then
    if dest ≠ [] then s.leave r dest none else s.leave r [] err
  else if chunk.length ≤ r.blockOff dest then
    if err = some .eof then s.leave r dest none else s.leave r dest err
  else { shared := s, task := .putting r dest chunk err startedAfter }

/-- From the second lock to the end of the turn of the loop. -/
def put (chunk : Bytes) (err : Option Err) (startedAfter : ℕ) (now : ℤ) (faults : Faults) :
    ReadTurn :=
  let service := (s.service.putBlockWithPolicy faults now (r.key dest) chunk).2
  let seen : List Event := if s.service.writesBlock faults now chunk then
    [.stored (r.key dest) startedAfter (s.invalidations r.accountId r.fileId)] else []
  let turn := if err = some .eof ∨ (r.copied dest chunk).length = 0 then
      { s with service }.leave r (dest ++ r.copied dest chunk) err
    else { s with service }.loop r (dest ++ r.copied dest chunk)
  { turn with seen := seen ++ turn.seen }

end State

/-- What the task does from where it stands; `fetch` returns at most what fits its buffer. -/
def resume (s : State) : Task → Outcome → Option ReadTurn
  | .loading r dest, .locked now faults => some (s.load r dest now faults)
  | .fetching r dest startedAfter, .fetched chunk err =>
    if chunk.length ≤ blockSize then some (s.fetched r dest chunk err startedAfter) else none
  | .putting r dest chunk err startedAfter, .locked now faults =>
    some (s.put r dest chunk err startedAfter now faults)
  | .passing r, .fetched data err =>
    if data.length ≤ r.len then some (s.leave r data err) else none
  | _, _ => none

/-- The start of `ReadAt`, and the methods that hold the mutex to their end. -/
def event (s : State) : Call → Option (Effect State Task Event)
  | .readAt r => some <|
    if r.len = 0 then { shared := s, seen := [.returned r [] none] }
    else if s.service.cfg.enabled then { shared := s, spawned := [.loading r []] }
    else { shared := s, spawned := [.passing r] }
  | .invalidateFile accountId fileId faults => some { shared :=
      { service := s.service.invalidateFile faults accountId fileId
        invalidations := fun a f =>
          s.invalidations a f + if a = accountId ∧ f = fileId then 1 else 0 } }
  | .invalidateAccount accountId faults =>
    some { shared := { s with service := s.service.invalidateAccount faults accountId } }
  | .clearAll now faults => some { shared := { s with service := s.service.clearAll faults now } }
  | .updateSettings cfg => some { shared := { s with service := { s.service with cfg } } }

def system : System State Task Event Outcome Call := ⟨resume, event⟩

/-- The service over an empty store. -/
def initial (cfg : Config) : ReadPool := { shared := { service := { cfg } } }

/-! ### Where a turn leads -/

theorem resume_cases {s : State} {t : Task} {o : Outcome} {turn : ReadTurn}
    (h : resume s t o = some turn) :
    (∃ r dest now faults, t = .loading r dest ∧ o = .locked now faults ∧
      turn = s.load r dest now faults) ∨
    (∃ r dest startedAfter chunk err, t = .fetching r dest startedAfter ∧
      o = .fetched chunk err ∧ chunk.length ≤ blockSize ∧
      turn = s.fetched r dest chunk err startedAfter) ∨
    (∃ r dest chunk err startedAfter now faults, t = .putting r dest chunk err startedAfter ∧
      o = .locked now faults ∧ turn = s.put r dest chunk err startedAfter now faults) ∨
    (∃ r data err, t = .passing r ∧ o = .fetched data err ∧ data.length ≤ r.len ∧
      turn = s.leave r data err) := by
  cases t with
  | loading r dest =>
    cases o with
    | locked now faults => exact .inl ⟨r, dest, now, faults, rfl, rfl, (Option.some.inj h).symm⟩
    | fetched chunk err => cases h
  | fetching r dest startedAfter =>
    cases o with
    | locked now faults => cases h
    | fetched chunk err =>
      rw [resume] at h
      split_ifs at h with hlen
      exact .inr (.inl ⟨r, dest, startedAfter, chunk, err, rfl, rfl, hlen, (Option.some.inj h).symm⟩)
  | putting r dest chunk err startedAfter =>
    cases o with
    | locked now faults =>
      exact .inr (.inr (.inl
        ⟨r, dest, chunk, err, startedAfter, now, faults, rfl, rfl, (Option.some.inj h).symm⟩))
    | fetched chunk' err' => cases h
  | passing r =>
    cases o with
    | locked now faults => cases h
    | fetched data err =>
      rw [resume] at h
      split_ifs at h with hlen
      exact .inr (.inr (.inr ⟨r, data, err, rfl, rfl, hlen, (Option.some.inj h).symm⟩))
  | finished => cases o <;> cases h

namespace State

variable (s : State) (r : Read) (dest : Bytes)

/-- The loop goes on while `dest` is not full. -/
theorem loop_cases :
    (dest.length < r.len ∧ s.loop r dest = { shared := s, task := .loading r dest }) ∨
    (r.len ≤ dest.length ∧ s.loop r dest = s.leave r dest none) := by
  unfold loop
  split_ifs with h
  · exact .inl ⟨h, rfl⟩
  · exact .inr ⟨by omega, rfl⟩

/-- A load changes no block. It goes to a fetch, or takes what a block has from the offset on:
less than it needs, or all of it. -/
theorem load_cases (now : ℤ) (faults : Faults) :
    ∃ s' : State, s'.service.store.files = s.service.store.files ∧
      s'.invalidations = s.invalidations ∧
      (s.load r dest now faults =
          { shared := s', task := .fetching r dest (s.invalidations r.accountId r.fileId) } ∨
        ∃ block data, s.service.store.files (r.key dest) = some block ∧
          data = (block.drop (r.blockOff dest)).take (r.need dest) ∧
          (data.length < r.need dest ∧ s.load r dest now faults = s'.leave r (dest ++ data) none ∨
            data.length = r.need dest ∧ s.load r dest now faults = s'.loop r (dest ++ data))) := by
  obtain ⟨data, ok, err, store, hload, hfiles, hdata⟩ :=
    s.service.store.loadBlockRange_cases faults now (r.key dest) (r.blockOff dest) (r.need dest)
  refine ⟨{ s with service := { s.service with store } }, hfiles, rfl, ?_⟩
  simp only [load, hload]
  split_ifs with hok hshort
  · obtain ⟨block, hblock, rfl⟩ := hdata hok.1 hok.2
    exact .inr ⟨block, _, hblock, rfl, .inl ⟨hshort, rfl⟩⟩
  · obtain ⟨block, hblock, rfl⟩ := hdata hok.1 hok.2
    have hle := List.length_take_le (r.need dest) (block.drop (r.blockOff dest))
    exact .inr ⟨block, _, hblock, rfl, .inr ⟨by omega, rfl⟩⟩
  · exact .inl rfl

/-- From the fetch a call leaves, or goes on to the put of a block that reaches its offset. -/
theorem fetched_cases (chunk : Bytes) (err : Option Err) (startedAfter : ℕ) :
    (chunk = [] ∧ dest ≠ [] ∧ s.fetched r dest chunk err startedAfter = s.leave r dest none) ∨
    (chunk = [] ∧ dest = [] ∧ s.fetched r dest chunk err startedAfter = s.leave r [] err) ∨
    (chunk.length ≤ r.blockOff dest ∧ err = some .eof ∧
      s.fetched r dest chunk err startedAfter = s.leave r dest none) ∨
    (chunk ≠ [] ∧ chunk.length ≤ r.blockOff dest ∧ err ≠ some .eof ∧
      s.fetched r dest chunk err startedAfter = s.leave r dest err) ∨
    (r.blockOff dest < chunk.length ∧ s.fetched r dest chunk err startedAfter =
      { shared := s, task := .putting r dest chunk err startedAfter }) := by
  unfold fetched
  split_ifs with hnil hdest hlen heof
  · exact .inl ⟨hnil, hdest, rfl⟩
  · exact .inr (.inl ⟨hnil, not_not.mp hdest, rfl⟩)
  · exact .inr (.inr (.inl ⟨hlen, heof, rfl⟩))
  · exact .inr (.inr (.inr (.inl ⟨hnil, hlen, heof, rfl⟩)))
  · exact .inr (.inr (.inr (.inr ⟨by omega, rfl⟩)))

end State

end AllInOneBackup.LitePan.FuseReadCache
