import AllInOneBackup.Data.TableSum
import AllInOneBackup.PanSou.TwoLevel.Levels

/-! `ShardedMemoryCache` by itself, under calls of its own. A read that finds an expired item removes
what the key has by then in a second section, and takes the size of the item it found off the
shard. -/

namespace AllInOneBackup.PanSou.MemoryCache

open Concurrency TwoLevel

variable {K D : Type} [DecidableEq K]

/-! ### `sharded_memory_cache.go` -/

/-- Where a call stands: before its next section. A `Get` or `GetWithTimestamp` has an item in hand
in `looked` and `expiring`. -/
inductive Point (K D : Type)
  | set (key : K) (data : D) (ttl lastModified : ℤ)
  | get (key : K)
  | looked (key : K) (item : Item D)
  | expiring (key : K) (item : Item D)
  | delete (key : K)
  | cleaning (now : ℤ) (shard : ℕ)
  | clearing (shard : ℕ)
  | returned (result : Option (D × ℤ))

/-- A turn that goes on, with the order in which `range` goes through the items. -/
inductive Outcome (K : Type)
  | turn
  | range (keys : List K)

abbrev CacheTurn (K D : Type) := Turn (Levels K D) (Point K D) Empty

abbrev CachePool (K D : Type) := Pool (Levels K D) (Point K D) Empty

inductive External (K D : Type)
  | setWithTimestamp (key : K) (data : D) (ttl lastModified : ℤ)
  | getWithTimestamp (key : K)
  | delete (key : K)
  | cleanExpired
  | clear
  | tick (d : ℕ)

section Shards

variable (c : Config K D) (s : Levels K D)

/-- `CleanExpired` in a shard. -/
def cleanShard (now : ℤ) (shard : ℕ) : Levels K D :=
  ((s.shardItems c shard s.items.keys).filter fun e => e.2.expiry < now).foldl
    (fun s e => s.deleteItem c e.1 e.2.size) s

/-- `Clear` in a shard. -/
def clearShard (shard : ℕ) : Levels K D :=
  { s with
    items := (s.items.keys.filter fun key => c.shard key = shard).foldl (fun t key => t.erase key)
      s.items
    currSize := Function.update s.currSize shard 0 }

def advance : Point K D → Outcome K → Option (Levels K D × Point K D)
  | .set key data ttl lastModified, .range keys =>
    if keys.Perm s.items.keys then
      some ((s.setWithTimestamp c key data ttl lastModified keys).1, .returned none)
    else none
  | .get key, .turn => match s.items.lookup key with
    | none => some (s, .returned none)
    | some item => some (s, .looked key item)
  | .looked key item, .turn =>
    if item.expiry < s.now then some (s, .expiring key item)
    else some (s.touch key item.object, .returned (some (item.data, item.lastModified)))
  | .expiring key item, .turn => some (s.deleteItem c key item.size, .returned none)
  | .delete key, .turn => match s.items.lookup key with
    | none => some (s, .returned none)
    | some item => some (s.deleteItem c key item.size, .returned none)
  | .cleaning now shard, .turn => some (cleanShard c s now shard, .returned none)
  | .clearing shard, .turn => some (clearShard c s shard, .returned none)
  | _, _ => none

end Shards

def resume (c : Config K D) (s : Levels K D) (t : Point K D) (o : Outcome K) :
    Option (CacheTurn K D) :=
  (advance c s t o).map fun r => { shared := r.1, task := r.2 }

def event (shardCount : ℕ) (s : Levels K D) :
    External K D → Option (Effect (Levels K D) (Point K D) Empty)
  | .setWithTimestamp key data ttl lastModified =>
    some { shared := s, spawned := [.set key data ttl lastModified] }
  | .getWithTimestamp key => some { shared := s, spawned := [.get key] }
  | .delete key => some { shared := s, spawned := [.delete key] }
  | .cleanExpired =>
    some { shared := s, spawned := (List.range shardCount).map fun shard => .cleaning s.now shard }
  | .clear => some { shared := s, spawned := (List.range shardCount).map .clearing }
  | .tick d => some { shared := { s with now := s.now + d } }

def system (c : Config K D) (shardCount : ℕ) :
    System (Levels K D) (Point K D) Empty (Outcome K) (External K D) :=
  ⟨resume c, event shardCount⟩

def newShardedMemoryCache : CachePool K D := { shared := {} }

/-! ### What the items of a shard take -/

section Totals

variable (c : Config K D) (s : Levels K D)

/-- The size of the items of a shard. -/
def total (shard : ℕ) : ℕ :=
  Data.TableSum.sum (fun key item => if c.shard key = shard then item.size else 0) s.items

/-- The number of the items of a shard. -/
def count (shard : ℕ) : ℕ := s.items.keys.countP fun key => c.shard key = shard

/-- The size of what the cache has for a key. -/
def sizeOf (key : K) : ℕ := ((s.items.lookup key).map (·.size)).getD 0

/-- `SetWithTimestamp` has to make room. -/
def crowded (key : K) (data : D) (keys : List K) : Prop :=
  c.itemsPerShard ≤ (s.shardItems c (c.shard key) keys).length ∨
    c.sizePerShard < s.currSize (c.shard key) - sizeOf s key + c.size data

instance (key : K) (data : D) (keys : List K) : Decidable (crowded c s key data keys) :=
  inferInstanceAs (Decidable (_ ∨ _))

/-- The item that `SetWithTimestamp` evicts. -/
def victim (key : K) (data : D) (keys : List K) : Option (K × Item D) :=
  if crowded c s key data keys then
    (Levels.oldest (s.shardItems c (c.shard key) keys)).filter fun e => e.1 ≠ c.empty
  else none

/-- The cache with the size of the old item taken off the shard. -/
def subtractOld (key : K) : Levels K D :=
  let size := s.currSize (c.shard key) - sizeOf s key
  { s with currSize := Function.update s.currSize (c.shard key) size }

/-- The cache with an item evicted. -/
def without : Option (K × Item D) → Levels K D
  | none => s
  | some e => s.deleteItem c e.1 e.2.size

end Totals

section Lemmas

variable {c : Config K D} {s : Levels K D} {key : K} {data : D} {keys : List K} {shard : ℕ}

theorem setWithTimestamp_eq (c : Config K D) (s : Levels K D) (key : K) (data : D)
    (ttl lastModified : ℤ) (keys : List K) :
    (s.setWithTimestamp c key data ttl lastModified keys).1 =
      (without c (subtractOld c s key) (victim c s key data keys)).storeItem c key data ttl
        lastModified := by
  rw [Levels.setWithTimestamp, Levels.makeRoom]
  simp only
  by_cases hroom : crowded c s key data keys
  · have hroom' := hroom
    unfold crowded sizeOf at hroom'
    rw [victim, if_pos hroom, if_pos hroom', Levels.evictFromShard]
    cases hold : Levels.oldest (s.shardItems c (c.shard key) keys) with
    | none => rfl
    | some e =>
      by_cases hempty : e.1 = c.empty
      · rw [Option.filter_some_neg (by simp [hempty])]
        simp only [if_pos hempty]
        rfl
      · rw [Option.filter_some_pos (by simp [hempty])]
        simp only [if_neg hempty]
        rfl
  · have hroom' := hroom
    unfold crowded sizeOf at hroom'
    rw [victim, if_neg hroom, if_neg hroom']
    rfl

theorem sizeOf_eq (c : Config K D) (s : Levels K D) (key : K) (shard : ℕ) :
    ((s.items.lookup key).map fun item => if c.shard key = shard then item.size else 0).getD 0 =
      if c.shard key = shard then sizeOf s key else 0 := by
  rw [sizeOf]
  cases s.items.lookup key with
  | none => simp
  | some item => simp

theorem total_deleteItem (c : Config K D) (s : Levels K D) (key : K) (size shard : ℕ) :
    total c (s.deleteItem c key size) shard + (if c.shard key = shard then sizeOf s key else 0) =
      total c s shard := by
  rw [← sizeOf_eq]
  exact Data.TableSum.sum_erase_add _ s.items key

theorem total_storeItem (c : Config K D) (s : Levels K D) (key : K) (data : D)
    (ttl lastModified : ℤ) (shard : ℕ) :
    total c (s.storeItem c key data ttl lastModified) shard +
        (if c.shard key = shard then sizeOf s key else 0) =
      total c s shard + if c.shard key = shard then c.size data else 0 := by
  have herase := Data.TableSum.sum_erase_add
    (fun key item => if c.shard key = shard then item.size else 0) s.items key
  rw [sizeOf_eq] at herase
  rw [total, Levels.storeItem, Data.TableSum.sum_insert, total, ← herase]
  simp only
  omega

omit [DecidableEq K] in
theorem count_eq (c : Config K D) (s : Levels K D) (shard : ℕ) : count c s shard =
    Data.TableSum.sum (fun key _ => if c.shard key = shard then 1 else 0) s.items := by
  rw [count, ← Data.TableSum.sum_one]
  simp only [decide_eq_true_eq]

theorem length_shardItems (h : keys.Perm s.items.keys) (shard : ℕ) :
    (s.shardItems c shard keys).length = count c s shard := by
  have hsome : ∀ k ∈ keys.filter fun key => c.shard key = shard,
      ((s.items.lookup k).map fun item => (k, item)).isSome := by
    intro k hk
    have hmem : k ∈ s.items := h.mem_iff.mp (List.mem_filter.mp hk).1
    rw [Option.isSome_map]
    exact AList.lookup_isSome.mpr hmem
  rw [Levels.shardItems, List.length_filterMap_eq_countP, List.countP_eq_length.mpr hsome, count,
    ← List.countP_eq_length_filter]
  exact h.countP_eq _

end Lemmas

end AllInOneBackup.PanSou.MemoryCache
