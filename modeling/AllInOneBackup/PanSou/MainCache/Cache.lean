import AllInOneBackup.Concurrency.Pool
import AllInOneBackup.PanSou.MainCache.Merge
import AllInOneBackup.PanSou.WriteManager.Flush

/-! The main cache. A call merges its results into the entry of its key under the lock of the key,
and the results merged by `mergeIntoMainCache` wait in the write manager for the disk. A flush hands
them to `SetBothLevels`, which takes no lock and does not merge, so it puts an old state of an entry
into memory again; the entries never shrink when each flush has all the results in memory. -/

namespace AllInOneBackup.PanSou.MainCache

open Concurrency
open DiskCache (Table)
open WriteManager (CacheOperation Stores Sorted)

variable {K P ι : Type}

/-! ### Model -/

/-- A call with its arguments. -/
inductive Call (K P : Type)
  | mergeIntoMainCache (key : K) (newResults : List SearchResult) (ttl : ℤ) (isFinal : Bool)
      (pluginName : P)
  | writeFinalMainCache (key : K) (results : List SearchResult) (ttl : ℤ)
  deriving DecidableEq

namespace Call

def key : Call K P → K
  | mergeIntoMainCache key .. => key
  | writeFinalMainCache key .. => key

def results : Call K P → List SearchResult
  | mergeIntoMainCache _ newResults .. => newResults
  | writeFinalMainCache _ results _ => results

/-- The results the call may store, where `Get` has returned `existing`. -/
def Stores (call : Call K P) (existing : Option (List SearchResult)) (merged : List SearchResult) :
    Prop :=
  match call, existing with
  | mergeIntoMainCache _ newResults _ _ _, some existing => Merged existing newResults merged
  | writeFinalMainCache _ results _, some existing =>
    if 0 < existing.length then Merged existing results merged else merged = results
  | _, none => merged = call.results

instance (call : Call K P) (existing : Option (List SearchResult)) (merged : List SearchResult) :
    Decidable (call.Stores existing merged) := by
  unfold Stores
  split <;> infer_instance

/-- A call stores the results of the entry and its own. -/
theorem hasKey_of_stores {call : Call K P} {existing : Option (List SearchResult)}
    {merged : List SearchResult} (h : call.Stores existing merged) (key : String) :
    HasKey merged key ↔ HasKey (existing.getD []) key ∨ HasKey call.results key := by
  have hnil : ∀ key, ¬HasKey [] key := by simp [HasKey]
  cases existing with
  | none =>
    have hm : merged = call.results := by
      cases call <;> exact h
    rw [hm]
    exact (or_iff_right (hnil key)).symm
  | some existing =>
    cases call with
    | mergeIntoMainCache k newResults ttl isFinal pluginName => exact hasKey_merged h key
    | writeFinalMainCache k results ttl =>
      simp only [Stores] at h
      split_ifs at h with hlen
      · exact hasKey_merged h key
      · obtain rfl : existing = [] := List.eq_nil_of_length_eq_zero (by omega)
        rw [h]
        exact (or_iff_right (hnil key)).symm

end Call

/-- The two levels of the cache, the locks of the keys, and the operations that wait. -/
structure Cache (K P ι : Type) where
  memory : Table K (List SearchResult) := ∅
  disk : Table K (List SearchResult) := ∅
  locked : ι → Bool := fun _ => false
  stores : Stores K (List SearchResult) P := {}

/-- Where a call or a flush stands: before its next section. -/
inductive Point (K P : Type)
  | start (call : Call K P)
  | get (call : Call K P)
  | diskGet (call : Call K P)
  | backfilling (call : Call K P) (existing : List SearchResult)
  | merging (call : Call K P) (existing : Option (List SearchResult))
  | handling (call : Call K P) (operation : CacheOperation K (List SearchResult) P)
  | diskSet (call : Call K P) (merged : List SearchResult)
  | unlocking (call : Call K P)
  | returned (call : Call K P)
  | flushing (operations : List (CacheOperation K (List SearchResult) P)) (batch : Bool)
  | flushingDisk (operation : CacheOperation K (List SearchResult) P)
      (operations : List (CacheOperation K (List SearchResult) P)) (batch : Bool)
  | flushed

/-- A turn that goes on, the merged results with the time, and an operation that goes to the queue
instead of a buffer. -/
inductive Outcome
  | turn
  | merged (results : List SearchResult) (timestamp : ℤ)
  | enqueue

abbrev CacheTurn (K P ι : Type) := Turn (Cache K P ι) (Point K P) Unit

abbrev CachePool (K P ι : Type) := Pool (Cache K P ι) (Point K P) Unit

/-- A call, or a turn of the write manager with the order in which it writes its operations. -/
inductive External (K P : Type)
  | call (call : Call K P)
  | process
  | flushGlobalBuffer (plugin : P) (written : List (CacheOperation K (List SearchResult) P))
  | executeBatchWrite (written : List (CacheOperation K (List SearchResult) P))
  | flushAllBuffer (plugin : P)
  | flushOperationMap (written : List (CacheOperation K (List SearchResult) P))
  | cleanup (plugin : P)

/-- A call after it has stored its results in memory. -/
def Call.stored (call : Call K P) (merged : List SearchResult) (timestamp : ℤ) : Point K P :=
  match call with
  | .mergeIntoMainCache key _ ttl isFinal pluginName => .handling call
    { key, data := merged, ttl, pluginName, timestamp, priority := if isFinal then 1 else 2 }
  | .writeFinalMainCache .. => .diskSet call merged

variable [DecidableEq K]

section System

variable [DecidableEq P] [DecidableEq ι] (stripe : K → ι)

def advance (s : Cache K P ι) : Point K P → Outcome → Option (CacheTurn K P ι)
  | .start call, .turn =>
    if s.locked (stripe call.key) then none
    else some
      { shared := { s with locked := Function.update s.locked (stripe call.key) true }
        task := .get call }
  | .get call, .turn => match s.memory.lookup call.key with
    | some existing => some { shared := s, task := .merging call (some existing) }
    | none => some { shared := s, task := .diskGet call }
  | .diskGet call, .turn => match s.disk.lookup call.key with
    | some existing => some { shared := s, task := .backfilling call existing }
    | none => some { shared := s, task := .merging call none }
  | .backfilling call existing, .turn => some
    { shared := { s with memory := s.memory.insert call.key existing }
      task := .merging call (some existing) }
  | .merging call existing, .merged results timestamp =>
    if call.Stores existing results then some
      { shared := { s with memory := s.memory.insert call.key results }
        task := call.stored results timestamp }
    else none
  | .handling call operation, .turn => some
    { shared := { s with stores := s.stores.addOperation operation }, task := .unlocking call }
  | .handling call operation, .enqueue => some
    { shared := { s with stores := (s.stores.merge operation).send operation }
      task := .unlocking call }
  | .diskSet call merged, .turn => some
    { shared := { s with disk := s.disk.insert call.key merged }, task := .unlocking call }
  | .unlocking call, .turn => some
    { shared := { s with locked := Function.update s.locked (stripe call.key) false }
      task := .returned call }
  | .flushing (op :: operations) batch, .turn => some
    { shared := { s with memory := s.memory.insert op.key op.data }
      task := .flushingDisk op operations batch }
  | .flushingDisk op operations batch, .turn => some
    { shared := { s with disk := s.disk.insert op.key op.data }
      task := .flushing operations batch }
  | .flushing [] batch, .turn => some
    { shared := { s with stores := if batch then s.stores.clear else s.stores }, task := .flushed }
  | _, _ => none

def event (s : Cache K P ι) : External K P → Option (Effect (Cache K P ι) (Point K P) Unit)
  | .call call => some { shared := s, spawned := [.start call] }
  | .process => some { shared := { s with stores := s.stores.receive } }
  | .flushGlobalBuffer plugin written => (s.stores.flushBuffer plugin).bind fun r =>
    if Sorted r.1 written then some
      { shared := { s with stores := r.2 }, spawned := [.flushing written false] }
    else none
  | .executeBatchWrite written =>
    if s.stores.queueBuffer = [] ∨ s.stores.compressed = [] then some { shared := s }
    else if Sorted s.stores.compressed written then some
      { shared := s, spawned := [.flushing written true] }
    else none
  | .flushAllBuffer plugin => (s.stores.flushBuffer plugin).map fun r =>
    { shared := { s with stores := r.2 }, spawned := [.flushing r.1 false] }
  | .flushOperationMap written =>
    if written.Perm s.stores.compressed then some
      { shared := s, spawned := [.flushing written false] }
    else none
  | .cleanup plugin =>
    if s.stores.buffers.lookup plugin = some [] then some
      { shared := { s with stores := s.stores.dropBuffer plugin } }
    else none

def system : System (Cache K P ι) (Point K P) Unit Outcome (External K P) :=
  ⟨advance stripe, event⟩

end System

/-- Nothing runs and nothing waits; the disk may have entries of an earlier process. -/
def start (disk : Table K (List SearchResult)) : CachePool K P ι := { shared := { disk } }

/-! ### The property and the condition -/

namespace Cache

variable (s : Cache K P ι)

/-- What `Get` returns. -/
def view (key : K) : Option (List SearchResult) := (s.memory.lookup key).or (s.disk.lookup key)

/-- `Get` returns a result with the key. -/
def Visible (key : K) (resultKey : String) : Prop := HasKey ((s.view key).getD []) resultKey

instance (key : K) (resultKey : String) : Decidable (s.Visible key resultKey) :=
  inferInstanceAs (Decidable (HasKey _ _))

end Cache

/-- A flush is about to put into memory an operation that has all the results there. -/
def Point.Complete (s : Cache K P ι) : Point K P → Prop
  | .flushing (op :: _) _ => ∀ result ∈ (s.view op.key).getD [],
    HasKey op.data (generateResultKey result)
  | _ => True

instance (s : Cache K P ι) (t : Point K P) : Decidable (t.Complete s) := by
  unfold Point.Complete
  split <;> infer_instance

/-- Each operation that a flush puts into memory has all the results there. -/
def FlushesComplete (p : CachePool K P ι) : Action Outcome (External K P) → Prop
  | .resume i _ => ∀ t ∈ p.tasks[i]?, t.Complete p.shared
  | .event _ => True

instance (p : CachePool K P ι) (a : Action Outcome (External K P)) :
    Decidable (FlushesComplete p a) := by
  unfold FlushesComplete
  split <;> infer_instance

end AllInOneBackup.PanSou.MainCache
