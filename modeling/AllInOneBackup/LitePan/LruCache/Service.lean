import AllInOneBackup.Data.Bytes
import AllInOneBackup.Data.Double
import Mathlib.Algebra.BigOperators.Group.List.Basic
import Mathlib.Algebra.Order.Group.Unbundled.Int
import Mathlib.Data.List.AList
import Mathlib.Logic.Function.Basic

/-! `cache.Service`, the metadata cache: a map of the keys to the elements of a list in the order
of their last use, a sum of their estimated sizes, and limits on both. Every method works in
sections under the mutex, and a run is any sequence of them. -/

namespace AllInOneBackup.LitePan.LruCache

/-- `entry`; without `expiresAt`, it does not expire. -/
structure Entry (V : Type*) where
  key : Bytes
  value : V
  size : ℤ
  expiresAt : Option ℤ

def Entry.expired {V : Type*} (en : Entry V) (now : ℤ) : Bool :=
  en.expiresAt.elim false fun t => now > t

/-- The elements are addresses: `heap` has their values, and `next` is the first that is new. -/
structure Service (V : Type*) where
  heap : ℕ → Entry V
  next : ℕ := 0
  ll : List ℕ := []
  items : AList fun _ : Bytes => ℕ := ∅
  maxItems : ℤ
  memLimit : ℤ
  curMem : ℤ := 0

/-- Of a value whose payload is estimated at `payload`. -/
def entrySize (payload : ℕ) (key : Bytes) : ℤ := (payload + 48 + key.length) * 110 / 100

namespace Service

variable {V : Type*}

/-- `NewService`, whatever the memory holds. -/
def newService (heap : ℕ → Entry V) (maxItems memLimit : ℤ) : Service V :=
  { heap, maxItems, memLimit }

variable (s : Service V)

def removeElement (el : ℕ) : Service V :=
  let en := s.heap el
  { s with
    ll := s.ll.erase el
    items := s.items.erase en.key
    curMem := s.curMem - en.size }

/-- Nothing, where the list is empty. -/
def evictOldest : Option (Service V) := s.ll.getLast?.map s.removeElement

theorem evictOldest_length {s s' : Service V} (h : s.evictOldest = some s') :
    s'.ll.length < s.ll.length := by
  obtain ⟨el, hlast, rfl⟩ := Option.map_eq_some_iff.mp h
  have hmem : el ∈ s.ll := List.mem_of_getLast? hlast
  have herase : (s.ll.erase el).length = s.ll.length - 1 := List.length_erase_of_mem hmem
  have hpos : 0 < s.ll.length := List.length_pos_of_mem hmem
  change (s.ll.erase el).length < s.ll.length
  omega

/-- `for again { if !s.evictOldest() { return } }`. -/
def evictWhile (again : Service V → Bool) (s : Service V) : Service V :=
  if again s then
    match _h : s.evictOldest with
    | none => s
    | some s' => evictWhile again s'
  else s
termination_by s.ll.length
decreasing_by exact evictOldest_length _h

def evictToBytes (target : ℤ) : Service V := s.evictWhile fun s => s.curMem > target

def evictBatch : ℕ → Service V → Service V
  | 0, s => s
  | n + 1, s =>
    match s.evictOldest with
    | none => s
    | some s => evictBatch n s

def batchCount : ℕ := min (max (s.items.entries.length / 10) 1) 100

/-- `int64(float64(s.memLimit) * 0.7)`. -/
def evictTarget : ℤ := Double.scale 6305039478318694 s.memLimit.toNat

/-- `int64(float64(s.memLimit) * 0.8)`. -/
def highWater : ℤ := Double.scale 7205759403792794 s.memLimit.toNat

def ensureCapacity : Service V :=
  let s :=
    if s.memLimit > 0 then
      if s.curMem > s.memLimit then s.evictToBytes s.evictTarget
      else if s.curMem > s.highWater then evictBatch s.batchCount s
      else s
    else s
  if s.maxItems > 0 then s.evictWhile fun s => s.items.entries.length > s.maxItems else s

/-- What `Set` and `restoreEntry` do before they ensure the capacity. -/
def write (key : Bytes) (value : V) (size : ℤ) (expiresAt : Option ℤ) : Service V :=
  match s.items.lookup key with
  | some el =>
    let en := s.heap el
    { s with
      curMem := s.curMem + (size - en.size)
      heap := Function.update s.heap el { en with value, size, expiresAt }
      ll := el :: s.ll.erase el }
  | none =>
    { s with
      heap := Function.update s.heap s.next ⟨key, value, size, expiresAt⟩
      next := s.next + 1
      ll := s.next :: s.ll
      items := s.items.insert key s.next
      curMem := s.curMem + size }

section Payload

variable (payload : V → ℕ)

def set (key : Bytes) (value : V) (ttl now : ℤ) : Service V :=
  let expiresAt := if ttl > 0 then some (now + ttl) else none
  (s.write key value (entrySize (payload value) key) expiresAt).ensureCapacity

def restoreEntry (key : Bytes) (value : V) (expiresAt : Option ℤ) : Service V :=
  (s.write key value (entrySize (payload value) key) expiresAt).ensureCapacity

end Payload

def lookup (key : Bytes) (now : ℤ) : Option V × Service V :=
  match s.items.lookup key with
  | none => (none, s)
  | some el =>
    let en := s.heap el
    if en.expired now then (none, s.removeElement el)
    else (some en.value, { s with ll := el :: s.ll.erase el })

def invalidateKey (key : Bytes) : Service V :=
  match s.items.lookup key with
  | none => s
  | some el => s.removeElement el

/-- The elements of `items` that satisfy `p` are removed, one by one. -/
def removeWhere (p : Bytes → ℕ → Bool) : Service V :=
  ((s.items.entries.filter fun item => p item.1 item.2).map Sigma.snd).foldl removeElement s

def invalidatePrefix (front : Bytes) : Service V := s.removeWhere fun k _ => front.isPrefixOf k

def sweepExpired (now : ℤ) : Service V := s.removeWhere fun _ el => (s.heap el).expired now

def clearAll : Service V := { s with items := ∅, ll := [], curMem := 0 }

/-- The first section of `ApplyLimits`; the second is `ensureCapacityLocked`. -/
def setLimits (maxItems memLimit : ℤ) : Service V := { s with maxItems, memLimit }

def ensureCapacityLocked : Service V := s.ensureCapacity

end Service

/-- The sections under the mutex, with what they read of the clock. -/
inductive Section (V : Type*)
  | set (key : Bytes) (value : V) (ttl now : ℤ)
  | restoreEntry (key : Bytes) (value : V) (expiresAt : Option ℤ)
  | lookup (key : Bytes) (now : ℤ)
  | invalidateKey (key : Bytes)
  | invalidatePrefix (front : Bytes)
  | clearAll
  | setLimits (maxItems memLimit : ℤ)
  | ensureCapacityLocked
  | sweepExpired (now : ℤ)

variable {V : Type*}

namespace Service

def step (payload : V → ℕ) (s : Service V) : Section V → Service V
  | .set key value ttl now => s.set payload key value ttl now
  | .restoreEntry key value expiresAt => s.restoreEntry payload key value expiresAt
  | .lookup key now => (s.lookup key now).2
  | .invalidateKey key => s.invalidateKey key
  | .invalidatePrefix front => s.invalidatePrefix front
  | .clearAll => s.clearAll
  | .setLimits maxItems memLimit => s.setLimits maxItems memLimit
  | .ensureCapacityLocked => s.ensureCapacityLocked
  | .sweepExpired now => s.sweepExpired now

/-- The state in which a section comes to `ensureCapacity`, or ends if it does not. -/
def edit (payload : V → ℕ) (s : Service V) : Section V → Service V
  | .set key value ttl now => s.write key value (entrySize (payload value) key)
      (if ttl > 0 then some (now + ttl) else none)
  | .restoreEntry key value expiresAt =>
    s.write key value (entrySize (payload value) key) expiresAt
  | .ensureCapacityLocked => s
  | sec => s.step payload sec

def exec (payload : V → ℕ) (s : Service V) (run : List (Section V)) : Service V :=
  run.foldl (step payload) s

end Service

/-- The section ends with `ensureCapacity`. -/
def Section.ensures : Section V → Bool
  | .set .. | .restoreEntry .. | .ensureCapacityLocked => true
  | _ => false

/-- The section uses the entry of a key, if there is one when it ends. -/
def Section.uses (key : Bytes) : Section V → Bool
  | .set k _ _ _ | .restoreEntry k _ _ | .lookup k _ => k = key
  | _ => false

end AllInOneBackup.LitePan.LruCache
