import AllInOneBackup.PanSou.DiskCache.Store

/-! `EnhancedTwoLevelCache`. A value is set in memory and, by a goroutine of its own, on the disk;
memory gives its oldest value of a shard to the disk when the shard is full, by another goroutine;
and a `Get` that finds a value on the disk only puts it into memory again. Every section under the
lock of a shard and every call of `DiskCache` is a turn, and the clock may go on between two
turns. -/

namespace AllInOneBackup.PanSou.TwoLevel

open Concurrency
open DiskCache (Table lookup_of_lookup_erase eq_of_lookup_insert)

variable {K D : Type} [DecidableEq K]

/-- The shard of a key, the empty key, the length of the data, the limits of a shard of memory, and
`CacheTTLMinutes`. -/
structure Config (K D : Type) where
  shard : K → ℕ
  empty : K
  size : D → ℕ
  itemsPerShard : ℕ
  sizePerShard : ℤ
  cacheTTL : ℤ

/-- `shardedMemoryCacheItem`; `object` tells it from all others. -/
structure Item (D : Type) where
  object : ℕ
  data : D
  expiry : ℤ
  lastUsed : ℤ
  lastModified : ℤ
  size : ℕ

/-- What `DiskCache` has for a key. -/
structure Entry (D : Type) where
  data : D
  expiry : ℤ
  lastModified : ℤ

/-- Memory with the sizes of its shards, the disk, and the clock; `objects` counts the items that
have been made. -/
structure Levels (K D : Type) where
  items : Table K (Item D) := ∅
  currSize : ℕ → ℤ := fun _ => 0
  disk : Table K (Entry D) := ∅
  objects : ℕ := 0
  now : ℤ := 0

/-- Who calls `disk.Set`: the goroutine of a `Set`, or that of an eviction. -/
inductive Writer
  | set
  | evictFromShard
  deriving DecidableEq

/-- Where a call or a goroutine stands: before its next section. A `Get` has an item of memory in
hand in `looked`, and the data of the disk from `timing` on. -/
inductive Point (K D : Type)
  | set (key : K) (data : D) (ttl : ℤ)
  | writing (writer : Writer) (key : K) (data : D) (ttl : ℤ)
  | evicted (key : K) (data : D) (expiry : ℤ)
  | get (key : K)
  | looked (key : K) (item : Item D)
  | expiring (key : K) (size : ℕ)
  | diskGet (key : K)
  | purging (key : K)
  | timing (key : K) (data : D)
  | remaining (key : K) (data : D) (expiry : ℤ)
  | dating (key : K) (data : D) (ttl : ℤ)
  | backfilling (key : K) (data : D) (ttl lastModified : ℤ)
  | delete (key : K)
  | diskDelete (key : K)
  | collecting (now : ℤ) (shards : List ℕ) (items : List (K × D × ℤ))
  | flushing (items : List (K × D × ℤ))
  | returned (result : Option D)

/-- A turn that goes on, with the order in which `range` goes through the items or with the choice
of the next item to flush, and what the disk returns. -/
inductive Outcome (K : Type)
  | turn
  | range (keys : List K)
  | pick (i : ℕ) (ok : Bool)
  | ok
  | failed

/-- An observer sees that a `Set` is in memory, with the end of its lifetime, that a `Delete` has
been there, and the time at which a `Get` returns data. -/
inductive Event (K D : Type)
  | stored (key : K) (data : D) (deadline : ℤ)
  | deleted (key : K)
  | got (key : K) (data : D) (time : ℤ)

abbrev LevelsTurn (K D : Type) := Turn (Levels K D) (Point K D) (Event K D)

abbrev LevelsPool (K D : Type) := Pool (Levels K D) (Point K D) (Event K D)

/-- A call, the clock, the cleanup of an item of memory, and an entry that the disk loses by its
own eviction or cleanup. -/
inductive External (K : Type) (D : Type)
  | set (key : K) (data : D) (ttl : ℤ)
  | get (key : K)
  | delete (key : K)
  | flushMemoryToDisk (shards : List ℕ)
  | tick (d : ℕ)
  | cleanItem (key : K)
  | lose (key : K)

namespace Levels

section Memory

variable (c : Config K D) (s : Levels K D)

/-- The items of a shard, in the order of `range`. -/
def shardItems (shard : ℕ) (keys : List K) : List (K × Item D) :=
  (keys.filter fun key => c.shard key = shard).filterMap fun key =>
    (s.items.lookup key).map fun item => (key, item)

/-- An item leaves memory. -/
def deleteItem (key : K) (size : ℕ) : Levels K D :=
  { s with
    items := s.items.erase key
    currSize := Function.update s.currSize (c.shard key) (s.currSize (c.shard key) - size) }

/-- The first item of those that have not been used for the longest time. -/
def oldest (items : List (K × Item D)) : Option (K × Item D) :=
  items.foldl (fun found e => match found with
    | none => some e
    | some o => if e.2.lastUsed < o.2.lastUsed then some e else some o) none

/-- `evictFromShard`, with the goroutine it starts. -/
def evictFromShard (items : List (K × Item D)) : Levels K D × List (Point K D) :=
  match oldest items with
  | none => (s, [])
  | some (key, item) =>
    if key = c.empty then (s, [])
    else (s.deleteItem c key item.size,
      if s.now < item.expiry then [.evicted key item.data item.expiry] else [])

/-- `SetWithTimestamp` before it stores: the size of the old item goes, and an item of the shard
that is full. -/
def makeRoom (key : K) (data : D) (keys : List K) : Levels K D × List (Point K D) :=
  let old := ((s.items.lookup key).map (·.size)).getD 0
  let size := s.currSize (c.shard key) - old
  let items := s.shardItems c (c.shard key) keys
  let s := { s with currSize := Function.update s.currSize (c.shard key) size }
  if c.itemsPerShard ≤ items.length ∨ c.sizePerShard < size + c.size data
  then s.evictFromShard c items
  else (s, [])

/-- `shard.items[key] = item`. -/
def storeItem (key : K) (data : D) (ttl lastModified : ℤ) : Levels K D :=
  { s with
    items := s.items.insert key
      ⟨s.objects, data, s.now + ttl, s.now, lastModified, c.size data⟩
    currSize := Function.update s.currSize (c.shard key) (s.currSize (c.shard key) + c.size data)
    objects := s.objects + 1 }

/-- `SetWithTimestamp`. -/
def setWithTimestamp (key : K) (data : D) (ttl lastModified : ℤ) (keys : List K) :
    Levels K D × List (Point K D) :=
  let (s, goroutines) := s.makeRoom c key data keys
  (s.storeItem c key data ttl lastModified, goroutines)

/-- `item.lastUsed` of an item that may no longer be in memory. -/
def touch (key : K) (object : ℕ) : Levels K D :=
  match s.items.lookup key with
  | some item =>
    if item.object = object then
      { s with items := s.items.insert key { item with lastUsed := s.now } }
    else s
  | none => s

/-- `GetAllItems`: one shard. -/
def liveItems (now : ℤ) (shard : ℕ) : List (K × D × ℤ) :=
  ((s.shardItems c shard s.items.keys).filter fun e => now < e.2.expiry).map
    fun e => (e.1, e.2.data, e.2.expiry - now)

end Memory

/-- `disk.Set`. -/
def diskSet (s : Levels K D) (key : K) (data : D) (ttl : ℤ) : Levels K D :=
  { s with disk := s.disk.insert key ⟨data, s.now + ttl, s.now⟩ }

/-- `disk.Delete`. -/
def diskDelete (s : Levels K D) (key : K) : Levels K D := { s with disk := s.disk.erase key }

end Levels

/-- What a turn leaves: the caches, where the call stands, the goroutines it has started, and what
an observer sees. -/
structure Step (K D : Type) where
  levels : Levels K D
  point : Point K D
  goroutines : List (Point K D) := []
  seen : List (Event K D) := []

def advance (c : Config K D) (s : Levels K D) : Point K D → Outcome K → Option (Step K D)
  | .set key data ttl, .range keys =>
    if keys.Perm s.items.keys then
      let (s', goroutines) := s.setWithTimestamp c key data ttl s.now keys
      some ⟨s', .returned none, .writing .set key data ttl :: goroutines,
        [.stored key data (s.now + ttl)]⟩
    else none
  | .writing _ key data ttl, .ok => some ⟨s.diskSet key data ttl, .returned none, [], []⟩
  | .writing _ _ _ _, .failed => some ⟨s, .returned none, [], []⟩
  | .evicted key data expiry, .turn =>
    some ⟨s, if 0 < expiry - s.now then .writing .evictFromShard key data (expiry - s.now)
      else .returned none, [], []⟩
  | .get key, .turn => match s.items.lookup key with
    | none => some ⟨s, .diskGet key, [], []⟩
    | some item => some ⟨s, .looked key item, [], []⟩
  | .looked key item, .turn =>
    if item.expiry < s.now then some ⟨s, .expiring key item.size, [], []⟩
    else some ⟨s.touch key item.object, .returned (some item.data), [],
      [.got key item.data s.now]⟩
  | .expiring key size, .turn => some ⟨s.deleteItem c key size, .diskGet key, [], []⟩
  | .diskGet key, .ok => match s.disk.lookup key with
    | none => some ⟨s, .returned none, [], []⟩
    | some e => some ⟨s, if e.expiry < s.now then .purging key else .timing key e.data, [], []⟩
  | .diskGet _, .failed => some ⟨s, .returned none, [], []⟩
  | .purging key, .turn => some ⟨s.diskDelete key, .returned none, [], []⟩
  | .timing key data, .turn => match s.disk.lookup key with
    | none => some ⟨s, .dating key data c.cacheTTL, [], []⟩
    | some e => some ⟨s, .remaining key data e.expiry, [], []⟩
  | .remaining key data expiry, .turn =>
    some ⟨s, if expiry - s.now ≤ 0 then .returned none else .dating key data (expiry - s.now),
      [], []⟩
  | .dating key data ttl, .turn =>
    some ⟨s, .backfilling key data ttl (((s.disk.lookup key).map (·.lastModified)).getD s.now),
      [], []⟩
  | .backfilling key data ttl lastModified, .range keys =>
    if keys.Perm s.items.keys then
      let (s', goroutines) := s.setWithTimestamp c key data ttl lastModified keys
      some ⟨s', .returned (some data), goroutines, [.got key data s.now]⟩
    else none
  | .delete key, .turn =>
    some ⟨match s.items.lookup key with
      | some item => s.deleteItem c key item.size
      | none => s, .diskDelete key, [], [.deleted key]⟩
  | .diskDelete key, .ok => some ⟨s.diskDelete key, .returned none, [], []⟩
  | .collecting now (shard :: shards) items, .turn =>
    some ⟨s, .collecting now shards (items ++ s.liveItems c now shard), [], []⟩
  | .collecting _ [] items, .turn => some ⟨s, .flushing items, [], []⟩
  | .flushing items, .pick i ok => items[i]?.map fun e =>
    ⟨if ok then s.diskSet e.1 e.2.1 e.2.2 else s, .flushing (items.eraseIdx i), [], []⟩
  | .flushing [], .turn => some ⟨s, .returned none, [], []⟩
  | _, _ => none

def resume (c : Config K D) (s : Levels K D) (t : Point K D) (o : Outcome K) :
    Option (LevelsTurn K D) :=
  (advance c s t o).map fun r =>
    { shared := r.levels, task := r.point, spawned := r.goroutines, seen := r.seen }

def event (c : Config K D) (s : Levels K D) :
    External K D → Option (Effect (Levels K D) (Point K D) (Event K D))
  | .set key data ttl => some { shared := s, spawned := [.set key data ttl] }
  | .get key => some { shared := s, spawned := [.get key] }
  | .delete key => some { shared := s, spawned := [.delete key] }
  | .flushMemoryToDisk shards => some { shared := s, spawned := [.collecting s.now shards []] }
  | .tick d => some { shared := { s with now := s.now + d } }
  | .cleanItem key => (s.items.lookup key).bind fun item =>
    if item.expiry < s.now then some { shared := s.deleteItem c key item.size } else none
  | .lose key => some { shared := s.diskDelete key }

def system (c : Config K D) :
    System (Levels K D) (Point K D) (Event K D) (Outcome K) (External K D) :=
  ⟨resume c, event c⟩

/-- `NewEnhancedTwoLevelCache` on an empty directory. -/
def newTwoLevelCache : LevelsPool K D := { shared := {} }

/-! ### What a turn can do -/

section Turn

variable {c : Config K D} {s : Levels K D} {t g : Point K D} {o : Outcome K} {r : Step K D}
  {k key : K} {item : Item D}

namespace Levels

theorem mem_shardItems {shard : ℕ} {keys : List K} {e : K × Item D}
    (h : e ∈ s.shardItems c shard keys) : s.items.lookup e.1 = some e.2 := by
  obtain ⟨key, -, hkey⟩ := List.mem_filterMap.mp h
  obtain ⟨item, hitem, rfl⟩ := Option.map_eq_some_iff.mp hkey
  exact hitem

omit [DecidableEq K] in
theorem mem_of_oldest {items : List (K × Item D)} {e : K × Item D}
    (h : oldest items = some e) : e ∈ items := by
  suffices hfold : ∀ (items : List (K × Item D)) (found : Option (K × Item D)),
      items.foldl (fun found e => match found with
        | none => some e
        | some o => if e.2.lastUsed < o.2.lastUsed then some e else some o) found = some e →
      found = some e ∨ e ∈ items by
    obtain hnone | hmem := hfold items none h
    · cases hnone
    · exact hmem
  intro items
  induction items with
  | nil => exact fun found h => .inl h
  | cons x xs ih =>
    intro found h
    obtain hfound | hmem := ih _ h
    · cases found with
      | none => exact .inr (Option.some.inj hfound ▸ List.mem_cons_self)
      | some o =>
        simp only at hfound
        split_ifs at hfound
        · exact .inr (Option.some.inj hfound ▸ List.mem_cons_self)
        · exact .inl hfound
    · exact .inr (List.mem_cons_of_mem _ hmem)

@[simp] theorem deleteItem_now (size : ℕ) : (s.deleteItem c key size).now = s.now := rfl

theorem lookup_deleteItem {size : ℕ} (h : (s.deleteItem c key size).items.lookup k = some item) :
    k ≠ key ∧ s.items.lookup k = some item := by
  refine ⟨?_, lookup_of_lookup_erase h⟩
  rintro rfl
  rw [deleteItem, AList.lookup_erase] at h
  cases h

/-- An eviction removes an item that it may give to a goroutine. -/
theorem evictFromShard_spec (c : Config K D) (s : Levels K D) (shard : ℕ) (keys : List K) :
    let r := s.evictFromShard c (s.shardItems c shard keys)
    r.1.disk = s.disk ∧ r.1.now = s.now ∧
      (∀ k item, r.1.items.lookup k = some item → s.items.lookup k = some item) ∧
      ∀ g ∈ r.2, ∃ k item, s.items.lookup k = some item ∧ g = .evicted k item.data item.expiry := by
  simp only [evictFromShard]
  cases h : oldest (s.shardItems c shard keys) with
  | none => exact ⟨rfl, rfl, fun _ _ => id, List.forall_mem_nil _⟩
  | some e =>
    have hitem := mem_shardItems (mem_of_oldest h)
    simp only
    split_ifs
    · exact ⟨rfl, rfl, fun _ _ => id, List.forall_mem_nil _⟩
    · refine ⟨rfl, rfl, fun _ _ hk => (lookup_deleteItem hk).2, fun g hg => ?_⟩
      exact ⟨e.1, e.2, hitem, List.mem_singleton.mp hg⟩
    · exact ⟨rfl, rfl, fun _ _ hk => (lookup_deleteItem hk).2, List.forall_mem_nil _⟩

theorem makeRoom_spec (c : Config K D) (s : Levels K D) (key : K) (data : D) (keys : List K) :
    let r := s.makeRoom c key data keys
    r.1.disk = s.disk ∧ r.1.now = s.now ∧
      (∀ k item, r.1.items.lookup k = some item → s.items.lookup k = some item) ∧
      ∀ g ∈ r.2, ∃ k item, s.items.lookup k = some item ∧ g = .evicted k item.data item.expiry := by
  simp only [makeRoom]
  split_ifs
  · exact evictFromShard_spec c { s with currSize := _ } (c.shard key) keys
  · exact ⟨rfl, rfl, fun _ _ => id, List.forall_mem_nil _⟩

/-- A value comes into memory, and another one may go. -/
theorem setWithTimestamp_spec (c : Config K D) (s : Levels K D) (key : K) (data : D)
    (ttl lastModified : ℤ) (keys : List K) :
    let r := s.setWithTimestamp c key data ttl lastModified keys
    r.1.disk = s.disk ∧ r.1.now = s.now ∧
      (∀ k item, r.1.items.lookup k = some item →
        (k = key ∧ item.data = data ∧ item.expiry = s.now + ttl) ∨
        (k ≠ key ∧ s.items.lookup k = some item)) ∧
      ∀ g ∈ r.2, ∃ k item, s.items.lookup k = some item ∧ g = .evicted k item.data item.expiry := by
  obtain ⟨hdisk, hnow, hitems, hgo⟩ := makeRoom_spec c s key data keys
  refine ⟨hdisk, hnow, fun k item hk => ?_, hgo⟩
  rcases eq_or_ne k key with rfl | hne
  · obtain rfl := eq_of_lookup_insert hk
    exact .inl ⟨rfl, rfl, congrArg (· + ttl) hnow⟩
  · exact .inr ⟨hne, hitems k item ((AList.lookup_insert_ne hne).symm.trans hk)⟩

theorem touch_spec (s : Levels K D) (key : K) (object : ℕ) :
    (s.touch key object).disk = s.disk ∧ (s.touch key object).now = s.now ∧
      ∀ k item, (s.touch key object).items.lookup k = some item →
        ∃ item', s.items.lookup k = some item' ∧ item'.data = item.data ∧
          item'.expiry = item.expiry := by
  unfold touch
  cases h : s.items.lookup key with
  | none => exact ⟨rfl, rfl, fun k item hk => ⟨item, hk, rfl, rfl⟩⟩
  | some old =>
    simp only
    split_ifs
    · refine ⟨rfl, rfl, fun k item hk => ?_⟩
      rcases eq_or_ne k key with rfl | hne
      · obtain rfl := eq_of_lookup_insert hk
        exact ⟨old, h, rfl, rfl⟩
      · exact ⟨item, (AList.lookup_insert_ne hne).symm.trans hk, rfl, rfl⟩
    · exact ⟨rfl, rfl, fun k item hk => ⟨item, hk, rfl, rfl⟩⟩

end Levels

/-- The turn of a `Set` or `Delete` of the key in memory. -/
def Point.overwrites (t : Point K D) (k : K) : Prop := (∃ d ttl, t = .set k d ttl) ∨ t = .delete k

/-- The turn of a `Set`, or of an eviction or a flush, that puts the data on the disk. -/
def Point.writes (t : Point K D) (o : Outcome K) (k : K) (d : D) (ttl : ℤ) : Prop :=
  (∃ w, t = .writing w k d ttl ∧ o = .ok) ∨
    ∃ items i, t = .flushing items ∧ o = .pick i true ∧ items[i]? = some (k, d, ttl)

/-- All that a turn can do to the caches: one item comes into memory, or one entry onto the disk,
or neither; and each goroutine it starts has to do with the item of a `Set` or an evicted one. -/
structure Spec (s : Levels K D) (t : Point K D) (o : Outcome K) (r : Step K D) : Prop where
  now : r.levels.now = s.now
  items : ∀ k item, r.levels.items.lookup k = some item →
    (¬t.overwrites k ∧ ∃ item', s.items.lookup k = some item' ∧ item'.data = item.data ∧
      item'.expiry = item.expiry) ∨
    ∃ ttl, (t = .set k item.data ttl ∨ ∃ m, t = .backfilling k item.data ttl m) ∧
      item.expiry = s.now + ttl
  disk : ∀ k e, r.levels.disk.lookup k = some e →
    (s.disk.lookup k = some e ∧ t ≠ .diskDelete k ∧ ∀ d ttl, ¬t.writes o k d ttl) ∨
    ∃ ttl, t.writes o k e.data ttl ∧ e.expiry = s.now + ttl
  goroutines : ∀ g ∈ r.goroutines, (∃ k d ttl, t = .set k d ttl ∧ g = .writing .set k d ttl) ∨
    ∃ k item, s.items.lookup k = some item ∧ g = .evicted k item.data item.expiry

/-- A turn that puts nothing into the caches. -/
theorem Spec.of_le (hnow : r.levels.now = s.now)
    (hitems : ∀ k item, r.levels.items.lookup k = some item → ¬t.overwrites k ∧
      ∃ item', s.items.lookup k = some item' ∧ item'.data = item.data ∧ item'.expiry = item.expiry)
    (hdisk : ∀ k e, r.levels.disk.lookup k = some e →
      s.disk.lookup k = some e ∧ t ≠ .diskDelete k ∧ ∀ d ttl, ¬t.writes o k d ttl)
    (hgo : r.goroutines = []) : Spec s t o r where
  now := hnow
  items k item hk := .inl (hitems k item hk)
  disk k e hk := .inl (hdisk k e hk)
  goroutines g hg := by
    rw [hgo] at hg
    cases hg

/-- A turn that leaves the caches. -/
theorem Spec.of_eq (hlevels : r.levels = s) (hgo : r.goroutines = [])
    (ht : ∀ k, ¬t.overwrites k ∧ t ≠ .diskDelete k ∧ ∀ d ttl, ¬t.writes o k d ttl) :
    Spec s t o r := by
  refine .of_le (by rw [hlevels]) (fun k item hk => ?_) (fun k e hk => ?_) hgo
  · exact ⟨(ht k).1, item, hlevels ▸ hk, rfl, rfl⟩
  · exact ⟨hlevels ▸ hk, (ht k).2⟩

/-- A turn that puts one entry onto the disk. -/
theorem Spec.of_diskSet {data : D} {ttl : ℤ} (hlevels : r.levels = s.diskSet key data ttl)
    (hgo : r.goroutines = []) (ht : ∀ k, ¬t.overwrites k ∧ t ≠ .diskDelete k)
    (hwrites : ∀ k d ttl', t.writes o k d ttl' ↔ k = key ∧ d = data ∧ ttl' = ttl) :
    Spec s t o r where
  now := by rw [hlevels]; rfl
  items k item hk := by
    rw [hlevels] at hk
    exact .inl ⟨(ht k).1, item, hk, rfl, rfl⟩
  disk k e hk := by
    rw [hlevels] at hk
    rcases eq_or_ne k key with rfl | hne
    · obtain rfl := eq_of_lookup_insert hk
      exact .inr ⟨ttl, (hwrites k data ttl).mpr ⟨rfl, rfl, rfl⟩, rfl⟩
    · refine .inl ⟨(AList.lookup_insert_ne hne).symm.trans hk, (ht k).2, fun d ttl' hw => ?_⟩
      exact hne ((hwrites k d ttl').mp hw).1
  goroutines g hg := by
    rw [hgo] at hg
    cases hg

theorem advance_flushing {items : List (K × D × ℤ)} {i : ℕ} {ok : Bool}
    (h : advance c s (.flushing items) (.pick i ok) = some r) : ∃ e, items[i]? = some e ∧
      ⟨if ok then s.diskSet e.1 e.2.1 e.2.2 else s, .flushing (items.eraseIdx i), [], []⟩ = r := by
  cases items with
  | nil => cases h
  | cons e items => exact Option.map_eq_some_iff.mp h

/-- The caches are only looked at. -/
def Point.looks : Point K D → Bool
  | .evicted _ _ _ | .get _ | .diskGet _ | .timing _ _ | .remaining _ _ _ | .dating _ _ _
  | .collecting _ _ _ => true
  | _ => false

theorem advance_looks (ht : t.looks = true) (h : advance c s t o = some r) :
    r.levels = s ∧ r.goroutines = [] := by
  cases t with
  | evicted key data expiry | remaining key data expiry =>
    cases o <;> cases h
    exact ⟨rfl, rfl⟩
  | get key | timing key data =>
    cases o <;> simp only [advance, reduceCtorEq] at h
    split at h <;> obtain rfl := Option.some.inj h <;> exact ⟨rfl, rfl⟩
  | diskGet key =>
    cases o <;> simp only [advance, reduceCtorEq] at h
    · split at h <;> obtain rfl := Option.some.inj h <;> exact ⟨rfl, rfl⟩
    · obtain rfl := Option.some.inj h
      exact ⟨rfl, rfl⟩
  | dating key data ttl =>
    cases o <;> cases h
    exact ⟨rfl, rfl⟩
  | collecting now shards items =>
    cases shards <;> cases o <;> cases h <;> exact ⟨rfl, rfl⟩
  | _ => cases ht

section Advance

variable {data : D} {ttl : ℤ}

theorem advance_set (h : advance c s (.set key data ttl) o = some r) :
    ∃ keys, ⟨(s.setWithTimestamp c key data ttl s.now keys).1, .returned none,
      .writing .set key data ttl :: (s.setWithTimestamp c key data ttl s.now keys).2,
      [.stored key data (s.now + ttl)]⟩ = r := by
  cases o with
  | range keys =>
    obtain ⟨-, h⟩ := Option.ite_none_right_eq_some.mp h
    exact ⟨keys, Option.some.inj h⟩
  | turn | pick | ok | failed => cases h

theorem advance_backfilling {lastModified : ℤ}
    (h : advance c s (.backfilling key data ttl lastModified) o = some r) :
    ∃ keys, ⟨(s.setWithTimestamp c key data ttl lastModified keys).1, .returned (some data),
      (s.setWithTimestamp c key data ttl lastModified keys).2, [.got key data s.now]⟩ = r := by
  cases o with
  | range keys =>
    obtain ⟨-, h⟩ := Option.ite_none_right_eq_some.mp h
    exact ⟨keys, Option.some.inj h⟩
  | turn | pick | ok | failed => cases h

theorem spec_set (h : advance c s (.set key data ttl) o = some r) :
    Spec s (.set key data ttl) o r := by
  obtain ⟨keys, rfl⟩ := advance_set h
  obtain ⟨hdisk, hnow, hitems, hgo⟩ := s.setWithTimestamp_spec c key data ttl s.now keys
  refine ⟨hnow, fun k item hk => ?_, fun k e hk => .inl ⟨hdisk ▸ hk, by simp, ?_⟩, ?_⟩
  · obtain ⟨rfl, rfl, hexpiry⟩ | ⟨hne, hold⟩ := hitems k item hk
    · exact .inr ⟨ttl, .inl rfl, hexpiry⟩
    · refine .inl ⟨?_, item, hold, rfl, rfl⟩
      rintro (⟨d, e, heq⟩ | heq)
      · cases heq
        exact hne rfl
      · cases heq
  · simp [Point.writes]
  · exact List.forall_mem_cons.mpr ⟨.inl ⟨key, data, ttl, rfl, rfl⟩, fun g hg => .inr (hgo g hg)⟩

theorem spec_writing {writer : Writer} (h : advance c s (.writing writer key data ttl) o = some r) :
    Spec s (.writing writer key data ttl) o r := by
  cases o <;> cases h
  · refine .of_diskSet rfl rfl (by simp [Point.overwrites]) fun k d ttl' => ?_
    constructor
    · rintro (⟨w, heq, -⟩ | ⟨items, i, heq, -⟩)
      · cases heq
        exact ⟨rfl, rfl, rfl⟩
      · cases heq
    · rintro ⟨rfl, rfl, rfl⟩
      exact .inl ⟨writer, rfl, rfl⟩
  · exact .of_eq rfl rfl (by simp [Point.overwrites, Point.writes])

/-- A hit in memory changes the time of the last use only. -/
theorem spec_looked (h : advance c s (.looked key item) o = some r) :
    Spec s (.looked key item) o r := by
  cases o <;> simp only [advance, reduceCtorEq] at h
  split_ifs at h <;> obtain rfl := Option.some.inj h
  · exact .of_eq rfl rfl (by simp [Point.overwrites, Point.writes])
  · obtain ⟨hdisk, hnow, hitems⟩ := s.touch_spec key item.object
    refine .of_le hnow (fun k it hk => ⟨?_, hitems k it hk⟩)
      (fun k e hk => ⟨hdisk ▸ hk, by simp, ?_⟩) rfl
    · simp [Point.overwrites]
    · simp [Point.writes]

theorem spec_expiring {size : ℕ} (h : advance c s (.expiring key size) o = some r) :
    Spec s (.expiring key size) o r := by
  cases o <;> cases h
  refine .of_le rfl (fun k it hk => ⟨?_, it, (Levels.lookup_deleteItem hk).2, rfl, rfl⟩)
    (fun k e hk => ⟨hk, by simp, ?_⟩) rfl
  · simp [Point.overwrites]
  · simp [Point.writes]

theorem spec_purging (h : advance c s (.purging key) o = some r) : Spec s (.purging key) o r := by
  cases o <;> cases h
  refine .of_le rfl (fun k it hk => ⟨?_, it, hk, rfl, rfl⟩)
    (fun k e hk => ⟨lookup_of_lookup_erase hk, by simp, ?_⟩) rfl
  · simp [Point.overwrites]
  · simp [Point.writes]

theorem spec_backfilling {lastModified : ℤ}
    (h : advance c s (.backfilling key data ttl lastModified) o = some r) :
    Spec s (.backfilling key data ttl lastModified) o r := by
  obtain ⟨keys, rfl⟩ := advance_backfilling h
  obtain ⟨hdisk, hnow, hitems, hgo⟩ := s.setWithTimestamp_spec c key data ttl lastModified keys
  refine ⟨hnow, fun k item hk => ?_, fun k e hk => .inl ⟨hdisk ▸ hk, by simp, ?_⟩,
    fun g hg => .inr (hgo g hg)⟩
  · obtain ⟨rfl, rfl, hexpiry⟩ | ⟨-, hold⟩ := hitems k item hk
    · exact .inr ⟨ttl, .inr ⟨lastModified, rfl⟩, hexpiry⟩
    · exact .inl ⟨by simp [Point.overwrites], item, hold, rfl, rfl⟩
  · simp [Point.writes]

theorem spec_delete (h : advance c s (.delete key) o = some r) : Spec s (.delete key) o r := by
  cases o <;> simp only [advance, reduceCtorEq] at h
  obtain rfl := Option.some.inj h
  have hitems : ∀ k it, (match s.items.lookup key with
      | some item => s.deleteItem c key item.size
      | none => s).items.lookup k = some it → k ≠ key ∧ s.items.lookup k = some it := by
    intro k it hk
    cases hold : s.items.lookup key with
    | none =>
      rw [hold] at hk
      refine ⟨?_, hk⟩
      rintro rfl
      rw [hold] at hk
      cases hk
    | some item =>
      rw [hold] at hk
      exact Levels.lookup_deleteItem hk
  refine .of_le (by dsimp only; split <;> rfl) (fun k it hk => ?_)
    (fun k e hk => ⟨?_, by simp, ?_⟩) rfl
  · obtain ⟨hne, hk⟩ := hitems k it hk
    refine ⟨?_, it, hk, rfl, rfl⟩
    rintro (⟨d, ttl, heq⟩ | heq)
    · cases heq
    · cases heq
      exact hne rfl
  · dsimp only at hk
    split at hk <;> exact hk
  · simp [Point.writes]

theorem spec_diskDelete (h : advance c s (.diskDelete key) o = some r) :
    Spec s (.diskDelete key) o r := by
  cases o <;> cases h
  refine .of_le rfl (fun k it hk => ⟨by simp [Point.overwrites], it, hk, rfl, rfl⟩)
    (fun k e hk => ⟨lookup_of_lookup_erase hk, ?_, by simp [Point.writes]⟩) rfl
  intro heq
  cases heq
  rw [Levels.diskDelete, AList.lookup_erase] at hk
  cases hk

theorem spec_flushing {items : List (K × D × ℤ)} (h : advance c s (.flushing items) o = some r) :
    Spec s (.flushing items) o r := by
  cases o with
  | pick i ok =>
    obtain ⟨e, he, rfl⟩ := advance_flushing h
    cases ok with
    | false => exact .of_eq rfl rfl (by simp [Point.overwrites, Point.writes])
    | true =>
      refine .of_diskSet rfl rfl (by simp [Point.overwrites]) fun k d ttl => ?_
      constructor
      · rintro (⟨w, heq, -⟩ | ⟨items', j, heq, hij, he'⟩)
        · cases heq
        · cases heq
          cases hij
          obtain rfl := Option.some.inj (he.symm.trans he')
          exact ⟨rfl, rfl, rfl⟩
      · rintro ⟨rfl, rfl, rfl⟩
        exact .inr ⟨items, i, rfl, rfl, he⟩
  | turn =>
    cases items <;> cases h
    exact .of_eq rfl rfl (by simp [Point.overwrites, Point.writes])
  | range | ok | failed => cases items <;> cases h

end Advance

theorem spec_advance (h : advance c s t o = some r) : Spec s t o r := by
  cases t with
  | evicted | get | diskGet | timing | remaining | dating | collecting =>
    obtain ⟨hlevels, hgo⟩ := advance_looks rfl h
    exact .of_eq hlevels hgo (by simp [Point.overwrites, Point.writes])
  | set key data ttl => exact spec_set h
  | writing writer key data ttl => exact spec_writing h
  | looked key item => exact spec_looked h
  | expiring key size => exact spec_expiring h
  | purging key => exact spec_purging h
  | backfilling key data ttl lastModified => exact spec_backfilling h
  | delete key => exact spec_delete h
  | diskDelete key => exact spec_diskDelete h
  | flushing items => exact spec_flushing h
  | returned result => cases o <;> cases h

end Turn

end AllInOneBackup.PanSou.TwoLevel
