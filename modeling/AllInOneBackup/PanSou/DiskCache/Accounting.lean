import AllInOneBackup.Concurrency.Marks
import AllInOneBackup.Data.TableSum
import AllInOneBackup.PanSou.DiskCache.Crash

/-! `currSize` of `DiskCache`, and what a `Set` that fails leaves. A `Set` takes the size of the old
entry off first and puts it on nowhere when it fails, and where the metadata cannot be saved it has
replaced the data of the old entry already. -/

namespace AllInOneBackup.PanSou.DiskCache

open Concurrency

variable {K F : Type} [DecidableEq K] [DecidableEq F]

/-! ### The size of the entries -/

section Totals

/-- The sum of `meta.Size` over the table. -/
def total (s : Cache K F) : ℕ :=
  Data.TableSum.sum (fun _ r => (s.objects[r]?).elim 0 (·.size)) s.metadata

/-- `meta.Size` of a key. -/
def sizeOf (s : Cache K F) (key : K) : ℕ := ((s.entry key).map (·.size)).getD 0

def Accounted (s : Cache K F) : Prop := s.currSize = total s

variable {s : Cache K F} {key key' : K} {m : Metadata K} {size : ℕ}

omit [DecidableEq F] in
theorem sizeOf_eq (s : Cache K F) (key : K) :
    ((s.metadata.lookup key).map fun r => (s.objects[r]?).elim 0 (·.size)).getD 0 = sizeOf s key := by
  rw [sizeOf, Cache.entry]
  cases s.metadata.lookup key with
  | none => rfl
  | some r => cases hr : s.objects[r]? <;> simp [hr]

omit [DecidableEq F] in
theorem total_drop (s : Cache K F) (key : K) (size : ℕ) :
    total (s.drop key size) + sizeOf s key = total s := by
  rw [← sizeOf_eq]
  exact Data.TableSum.sum_erase_add (fun _ r => (s.objects[r]?).elim 0 (·.size)) s.metadata key

omit [DecidableEq F] in
theorem entry_drop_eq (s : Cache K F) (key' key : K) (size : ℕ) :
    (s.drop key' size).entry key = if key' = key then none else s.entry key := by
  rw [Cache.entry, Cache.drop]
  split_ifs with h
  · subst h
    rw [AList.lookup_erase]
    rfl
  · rw [AList.lookup_erase_ne (Ne.symm h)]
    rfl

omit [DecidableEq F] in
theorem sizeOf_drop (s : Cache K F) (key' key : K) (size : ℕ) :
    sizeOf (s.drop key' size) key = if key' = key then 0 else sizeOf s key := by
  rw [sizeOf, entry_drop_eq]
  split_ifs <;> rfl

omit [DecidableEq F] in
/-- A new entry takes the place of the old one. -/
theorem total_add (h : s.Tabled) (key : K) (m : Metadata K) :
    total (s.add key m) + sizeOf s key = total s + m.size := by
  have herase := Data.TableSum.sum_erase_add
    (fun _ r => (s.objects[r]?).elim 0 (·.size)) s.metadata key
  rw [sizeOf_eq] at herase
  have hrest : Data.TableSum.sum (fun _ r => ((s.objects ++ [m])[r]?).elim 0 (·.size))
      (s.metadata.erase key) =
      Data.TableSum.sum (fun _ r => (s.objects[r]?).elim 0 (·.size)) (s.metadata.erase key) := by
    refine Data.TableSum.sum_congr fun e he => ?_
    have hlookup : (s.metadata.erase key).lookup e.1 = some e.2 := AList.mem_lookup_iff.mpr he
    have hlt := (h e.1 e.2 (lookup_of_lookup_erase hlookup)).lt
    rw [List.getElem?_append_left hlt]
  rw [total, Cache.add, Data.TableSum.sum_insert, hrest, total, ← herase]
  simp only [List.getElem?_concat_length, Option.elim_some]
  omega

omit [DecidableEq K] [DecidableEq F] in
theorem sizeOf_objects_touch (s : Cache K F) (object r : ℕ) :
    ((s.touch object).objects[r]?).elim 0 (·.size) = (s.objects[r]?).elim 0 (·.size) := by
  rw [Cache.touch, List.getElem?_modify]
  cases s.objects[r]? with
  | none => rfl
  | some m => split_ifs <;> rfl

omit [DecidableEq K] [DecidableEq F] in
theorem total_touch (s : Cache K F) (object : ℕ) : total (s.touch object) = total s :=
  Data.TableSum.sum_congr fun e _ => sizeOf_objects_touch s object e.2

/-- An entry that is to be removed is there, with its size, and each key comes once. -/
structure Listed (s : Cache K F) (items : List (Item K)) : Prop where
  nodup : (items.map Item.key).Nodup
  size : ∀ item ∈ items, sizeOf s item.key = item.size

omit [DecidableEq F] in
theorem Listed.drop {item : Item K} {items : List (Item K)} (h : Listed s (item :: items)) :
    Listed (s.drop item.key item.size) items := by
  have hnodup := h.nodup
  rw [List.map_cons, List.nodup_cons] at hnodup
  refine ⟨hnodup.2, fun x hx => ?_⟩
  have hne : item.key ≠ x.key := fun heq => hnodup.1 (heq ▸ List.mem_map_of_mem hx)
  rw [sizeOf_drop, if_neg hne]
  exact h.size x (List.mem_cons_of_mem _ hx)

omit [DecidableEq F] in
theorem Listed.tail {item : Item K} {items : List (Item K)} (h : Listed s (item :: items)) :
    Listed s items := by
  have hnodup := h.nodup
  rw [List.map_cons, List.nodup_cons] at hnodup
  exact ⟨hnodup.2, fun x hx => h.size x (List.mem_cons_of_mem _ hx)⟩

omit [DecidableEq F] in
theorem Listed.congr {s' : Cache K F} {items : List (Item K)} (h : Listed s items)
    (hmetadata : s'.metadata = s.metadata) (hobjects : s'.objects = s.objects) :
    Listed s' items := by
  refine ⟨h.nodup, fun item hitem => ?_⟩
  rw [← h.size item hitem, sizeOf, sizeOf, Cache.entry, Cache.entry, hmetadata, hobjects]

omit [DecidableEq F] in
theorem mem_items {entries : List (Sigma fun _ : K => ℕ)} (h : entries.Perm s.metadata.entries)
    {e : K × Metadata K} (he : e ∈ s.items entries) : s.entry e.1 = some e.2 := by
  obtain ⟨x, hx, hm⟩ := List.mem_filterMap.mp he
  obtain ⟨m, hobject, rfl⟩ := Option.map_eq_some_iff.mp hm
  have hlookup : s.metadata.lookup x.1 = some x.2 := AList.mem_lookup_iff.mpr (h.mem_iff.mp hx)
  rw [Cache.entry, hlookup]
  exact hobject

omit [DecidableEq K] [DecidableEq F] in
theorem nodup_items {entries : List (Sigma fun _ : K => ℕ)} (h : entries.Perm s.metadata.entries) :
    ((s.items entries).map Prod.fst).Nodup := by
  have hkeys : (entries.map Sigma.fst).Nodup :=
    (h.map Sigma.fst).nodup_iff.mpr s.metadata.nodupKeys
  exact hkeys.sublist (Data.TableSum.map_fst_filterMap_sublist Sigma.fst
    (fun e : Sigma fun _ : K => ℕ => s.objects[e.2]?) entries)

omit [DecidableEq F] in
theorem listed_map {entries : List (K × Metadata K)} (hnodup : (entries.map Prod.fst).Nodup)
    (hentries : ∀ e ∈ entries, s.entry e.1 = some e.2) :
    Listed s (entries.map fun e => ⟨e.1, e.2.size⟩) := by
  constructor
  · rw [List.map_map]
    exact hnodup
  · intro item hitem
    obtain ⟨e, he, rfl⟩ := List.mem_map.mp hitem
    rw [sizeOf, hentries e he]
    rfl

omit [DecidableEq F] in
theorem listed_leastRecentlyUsed {entries : List (Sigma fun _ : K => ℕ)}
    (h : entries.Perm s.metadata.entries) : Listed s (s.leastRecentlyUsed entries) := by
  have hperm := (s.items entries).perm_insertionSort fun a b => a.2.lastUsed ≤ b.2.lastUsed
  exact listed_map ((hperm.map Prod.fst).nodup_iff.mpr (nodup_items h))
    fun e he => mem_items h (hperm.mem_iff.mp he)

omit [DecidableEq F] in
theorem listed_expired {entries : List (Sigma fun _ : K => ℕ)}
    (h : entries.Perm s.metadata.entries) : Listed s (s.expired entries) :=
  listed_map ((nodup_items h).sublist (List.filter_sublist.map _))
    fun _ he => mem_items h (List.mem_filter.mp he).1

end Totals

/-! ### The accounting of a turn -/

section Turns

/-- What a sweep has taken off the size already. -/
def owed (s : Cache K F) : Sweep K → ℕ
  | .evictLRU key _ _ => sizeOf s key
  | .cleanExpired => 0

/-- A `Set` does not evict an entry of the file of its own key. -/
def Spares (getFilename : K → F) : Sweep K → Item K → Prop
  | .evictLRU key _ _, item => getFilename item.key ≠ getFilename key
  | .cleanExpired, _ => True

/-- How the size stands while a call holds the lock. -/
def Holding (getFilename : K → F) (s : Cache K F) : Point K → Prop
  | .sweeping sweep items => s.currSize + owed s sweep = total s ∧ Listed s items
  | .sweepingMeta sweep item items => s.currSize + owed s sweep = total s ∧
    Listed s (item :: items) ∧ Spares getFilename sweep item
  | .writing key _ _ | .stamping key _ _ | .saving key _ _ | .undoing key =>
    s.currSize + sizeOf s key = total s
  | .deleting key object => s.currSize = total s ∧ s.metadata.lookup key = some object
  | _ => True

/-- A `Set` spares the entry of its own key, and where that has an entry it does not fail, unless in
writing its data where the entry is of size zero. -/
def Unharmed (getFilename : K → F) (s : Cache K F) : Point K → Outcome K → Prop
  | .sweeping sweep (item :: _), .ok => Spares getFilename sweep item
  | .writing key _ _, .failed => sizeOf s key = 0
  | .undoing key, _ => s.entry key = none
  | _, _ => True

variable {getFilename : K → F} {s s' : Cache K F} {point point' : Point K} {o : Outcome K}
  {seen : List (Event K)}

/-- A turn of a call that does not hold the lock, while another one holds it, changes nothing. -/
theorem eq_of_locked_elsewhere (hpoint : point.locked = false) (hmutex : s.mutex = true)
    (h : advance getFilename s point o = some (s', point', seen)) : s' = s := by
  cases point with
  | get key | checking key object | reading key object =>
    exact (@advance_looks _ _ _ _ _ _ _ [] _ _ _ _ rfl h).1
  | set key data ttl | clean =>
    cases o <;> simp [advance, hmutex] at h
  | touching key object data => simp [advance, hmutex] at h
  | delete key => simp [advance, hmutex] at h
  | returned => cases o <;> simp only [advance, reduceCtorEq] at h
  | sweeping _ _ | sweepingMeta _ _ _ | writing _ _ _ | stamping _ _ _ | saving _ _ _
  | undoing _ | deleting _ _ => cases hpoint

omit [DecidableEq F] in
theorem holding_beginSet {key : K} {data : Bytes} {ttl : ℤ} {entries : List (Sigma fun _ : K => ℕ)}
    (hfree : Accounted s) (hentries : entries.Perm s.metadata.entries) :
    (s.beginSet key data ttl entries).1.mutex = true ∧
      Holding getFilename (s.beginSet key data ttl entries).1
        (s.beginSet key data ttl entries).2 := by
  refine ⟨rfl, ?_⟩
  have hsize : s.currSize - ((s.entry key).map (·.size)).getD 0 + sizeOf s key = total s := by
    rw [← hfree, sizeOf]
    omega
  unfold Cache.beginSet
  simp only
  split_ifs
  · exact ⟨hsize, (listed_leastRecentlyUsed hentries).congr rfl rfl⟩
  · exact hsize

omit [DecidableEq F] in
/-- An entry that is swept away takes its size off. -/
theorem holding_drop {sweep : Sweep K} {item : Item K} {items : List (Item K)}
    (hsize : s.currSize + owed s sweep = total s) (hlisted : Listed s (item :: items))
    (hspares : Spares getFilename sweep item) :
    Holding getFilename (s.drop item.key item.size) (.sweeping sweep items) := by
  refine ⟨?_, hlisted.drop⟩
  have htotal := total_drop s item.key item.size
  have hitem := hlisted.size item List.mem_cons_self
  have howed : owed (s.drop item.key item.size) sweep = owed s sweep := by
    cases sweep with
    | evictLRU key data ttl =>
      have hne : item.key ≠ key := fun heq => hspares (congrArg getFilename heq)
      rw [owed, sizeOf_drop, if_neg hne]
      rfl
    | cleanExpired => rfl
  rw [howed]
  simp only [Cache.drop] at htotal ⊢
  omega

/-- How the size stands when a call is at a point: in that call, if it has the lock, and in the
table if none has it. -/
structure Sized (getFilename : K → F) (s : Cache K F) (point : Point K) : Prop where
  held : point.locked = true → Holding getFilename s point
  free : s.mutex = false → Accounted s

omit [DecidableEq F] in
theorem Sized.of_held (hmutex : s.mutex = true) (h : Holding getFilename s point) :
    Sized getFilename s point := by
  refine ⟨fun _ => h, fun hfree => ?_⟩
  rw [hmutex] at hfree
  cases hfree

omit [DecidableEq F] in
theorem Sized.of_unlocked (hpoint : point.locked = false) (h : s.mutex = false → Accounted s) :
    Sized getFilename s point := by
  refine ⟨fun hl => ?_, h⟩
  rw [hpoint] at hl
  cases hl

section Advance

variable {key : K} {data : Bytes} {ttl : ℤ} {sweep : Sweep K} {items : List (Item K)}

theorem sized_set (h : Sized getFilename s (.set key data ttl))
    (hadvance : advance getFilename s (.set key data ttl) o = some (s', point', seen)) :
    Sized getFilename s' point' := by
  obtain ⟨entries, hfree, hperm, rfl, rfl, rfl⟩ := advance_set hadvance
  have hbegin : (s.beginSet key data ttl entries).1.mutex = true ∧
      Holding getFilename (s.beginSet key data ttl entries).1
        (s.beginSet key data ttl entries).2 := holding_beginSet (h.free hfree) hperm
  exact .of_held hbegin.1 hbegin.2

/-- `evictLRU` and `cleanExpired`, up to the data file of an entry. -/
theorem sized_sweeping (hmutex : s.mutex = true) (h : Sized getFilename s (.sweeping sweep items))
    (hok : Unharmed getFilename s (.sweeping sweep items) o)
    (hadvance : advance getFilename s (.sweeping sweep items) o = some (s', point', seen)) :
    Sized getFilename s' point' := by
  obtain ⟨hsize, hlisted⟩ := h.held rfl
  cases o with
  | turn =>
    obtain ⟨-, hadvance⟩ := Option.ite_none_right_eq_some.mp hadvance
    cases sweep with
    | evictLRU key data ttl =>
      cases hadvance
      exact .of_held hmutex hsize
    | cleanExpired =>
      cases hadvance
      refine .of_unlocked rfl fun _ => ?_
      have hzero : (owed s (.cleanExpired : Sweep K) : ℤ) = 0 := rfl
      rw [hzero, Int.add_zero] at hsize
      exact hsize
  | ok =>
    cases items with
    | nil => cases hadvance
    | cons item items =>
      obtain ⟨-, hadvance⟩ := Option.ite_none_left_eq_some.mp hadvance
      cases hadvance
      exact .of_held hmutex ⟨hsize, hlisted.congr rfl rfl, hok⟩
  | failed =>
    cases items with
    | nil => cases hadvance
    | cons item items =>
      obtain ⟨-, hadvance⟩ := Option.ite_none_left_eq_some.mp hadvance
      cases hadvance
      exact .of_held hmutex ⟨hsize, hlisted.tail⟩
  | range => cases items <;> cases hadvance

/-- The entry goes, whether or not its metadata file can be removed. -/
theorem sized_sweepingMeta {item : Item K} (hmutex : s.mutex = true)
    (h : Sized getFilename s (.sweepingMeta sweep item items))
    (hadvance : advance getFilename s (.sweepingMeta sweep item items) o =
      some (s', point', seen)) :
    Sized getFilename s' point' := by
  obtain ⟨hsize, hlisted, hspares⟩ := h.held rfl
  cases o <;> cases hadvance
  · have hremoved : Listed (s.removeMeta getFilename item.key) (item :: items) :=
      hlisted.congr rfl rfl
    exact .of_held hmutex
      (holding_drop (s := s.removeMeta getFilename item.key) hsize hremoved hspares)
  · exact .of_held hmutex (holding_drop hsize hlisted hspares)

theorem sized_writing (hmutex : s.mutex = true) (h : Sized getFilename s (.writing key data ttl))
    (hok : Unharmed getFilename s (.writing key data ttl) o)
    (hadvance : advance getFilename s (.writing key data ttl) o = some (s', point', seen)) :
    Sized getFilename s' point' := by
  have hsize : s.currSize + sizeOf s key = total s := h.held rfl
  cases o <;> cases hadvance
  · exact .of_held hmutex hsize
  · have hzero : sizeOf s key = 0 := hok
    rw [hzero] at hsize
    exact .of_unlocked rfl fun _ => (Int.add_zero _).symm.trans hsize

theorem sized_stamping (hmutex : s.mutex = true) (h : Sized getFilename s (.stamping key data ttl))
    (hadvance : advance getFilename s (.stamping key data ttl) o = some (s', point', seen)) :
    Sized getFilename s' point' := by
  cases o <;> cases hadvance
  exact .of_held hmutex (h.held rfl)

theorem sized_saving {m : Metadata K} (htable : s.Tabled) (hmutex : s.mutex = true)
    (h : Sized getFilename s (.saving key data m))
    (hadvance : advance getFilename s (.saving key data m) o = some (s', point', seen)) :
    Sized getFilename s' point' := by
  have hsize : s.currSize + sizeOf s key = total s := h.held rfl
  cases o <;> cases hadvance
  · refine .of_unlocked rfl fun _ => ?_
    have hadd := total_add htable key m
    have htotal : total ((s.saveMetadata getFilename key m).add key m).unlock =
      total (s.add key m) := rfl
    rw [Accounted, htotal]
    simp only [Cache.unlock, Cache.add, Cache.saveMetadata] at hadd ⊢
    omega
  · exact .of_held hmutex hsize

theorem sized_undoing (h : Sized getFilename s (.undoing key))
    (hok : Unharmed getFilename s (.undoing key) o)
    (hadvance : advance getFilename s (.undoing key) o = some (s', point', seen)) :
    Sized getFilename s' point' := by
  have hsize : s.currSize + sizeOf s key = total s := h.held rfl
  have hnone : s.entry key = none := hok
  have hzero : sizeOf s key = 0 := by
    rw [sizeOf, hnone]
    rfl
  rw [hzero] at hsize
  have haccounted : s.currSize = total s := (Int.add_zero _).symm.trans hsize
  cases o <;> cases hadvance
  · exact .of_unlocked rfl fun _ => haccounted
  · exact .of_unlocked rfl fun _ => haccounted

/-- `Get` changes the time of the last use only. -/
theorem sized_touching {object : ℕ} (h : Sized getFilename s (.touching key object data))
    (hadvance : advance getFilename s (.touching key object data) o = some (s', point', seen)) :
    Sized getFilename s' point' := by
  obtain ⟨hunlocked, hadvance⟩ := Option.ite_none_left_eq_some.mp hadvance
  rw [Bool.not_eq_true] at hunlocked
  obtain ⟨m, hm, hnext⟩ := Option.bind_eq_some_iff.mp hadvance
  have haccounted : s.currSize = total (s.touch object) := by
    rw [total_touch]
    exact h.free hunlocked
  cases o <;> cases hnext
  · exact .of_unlocked rfl fun _ => haccounted
  · exact .of_unlocked rfl fun _ => haccounted

theorem sized_delete (h : Sized getFilename s (.delete key))
    (hadvance : advance getFilename s (.delete key) o = some (s', point', seen)) :
    Sized getFilename s' point' := by
  obtain ⟨hunlocked, hnext⟩ := Option.ite_none_left_eq_some.mp hadvance
  rw [Bool.not_eq_true] at hunlocked
  split at hnext
  · obtain ⟨rfl, rfl, rfl⟩ : _ ∧ _ ∧ _ := by simpa using hnext
    exact .of_unlocked rfl h.free
  · rename_i object hobject
    obtain ⟨rfl, rfl, rfl⟩ : _ ∧ _ ∧ _ := by simpa using hnext
    exact .of_held rfl ⟨h.free hunlocked, hobject⟩
  · rename_i object hobject
    obtain ⟨rfl, rfl, rfl⟩ : _ ∧ _ ∧ _ := by simpa using hnext
    exact .of_held rfl ⟨h.free hunlocked, hobject⟩
  · cases hnext

theorem sized_deleting {object : ℕ} (h : Sized getFilename s (.deleting key object))
    (hadvance : advance getFilename s (.deleting key object) o = some (s', point', seen)) :
    Sized getFilename s' point' := by
  obtain ⟨hsize, hobject⟩ := h.held rfl
  obtain ⟨m, hm, hnext⟩ := Option.bind_eq_some_iff.mp hadvance
  have hentry : sizeOf s key = m.size := by
    rw [sizeOf, Cache.entry, hobject, Option.bind_some, hm]
    rfl
  have haccounted : s.currSize - m.size = total (s.drop key m.size) := by
    have htotal := total_drop s key m.size
    omega
  cases o <;> cases hnext
  · exact .of_unlocked rfl fun _ => haccounted
  · exact .of_unlocked rfl fun _ => haccounted

theorem sized_clean (h : Sized getFilename s .clean)
    (hadvance : advance getFilename s .clean o = some (s', point', seen)) :
    Sized getFilename s' point' := by
  cases o with
  | range entries =>
    obtain ⟨hentries, hadvance⟩ := Option.ite_none_right_eq_some.mp hadvance
    cases hadvance
    refine .of_held rfl ⟨?_, (listed_expired hentries.2).congr rfl rfl⟩
    exact (Int.add_zero _).trans (h.free hentries.1)
  | turn | ok | failed => cases hadvance

end Advance

theorem sized_advance (htable : s.Tabled) (hlocked : point.locked = true → s.mutex = true)
    (h : Sized getFilename s point) (hok : Unharmed getFilename s point o)
    (hadvance : advance getFilename s point o = some (s', point', seen)) :
    Sized getFilename s' point' := by
  cases point with
  | set key data ttl => exact sized_set h hadvance
  | sweeping sweep items => exact sized_sweeping (hlocked rfl) h hok hadvance
  | sweepingMeta sweep item items => exact sized_sweepingMeta (hlocked rfl) h hadvance
  | writing key data ttl => exact sized_writing (hlocked rfl) h hok hadvance
  | stamping key data ttl => exact sized_stamping (hlocked rfl) h hadvance
  | saving key data m => exact sized_saving htable (hlocked rfl) h hadvance
  | undoing key => exact sized_undoing h hok hadvance
  | get | checking | reading =>
    obtain ⟨rfl, -, -, hpoint', -⟩ := @advance_looks _ _ _ _ _ _ _ [] _ _ _ _ rfl hadvance
    exact .of_unlocked hpoint' h.free
  | touching key object data => exact sized_touching h hadvance
  | delete key => exact sized_delete h hadvance
  | deleting key object => exact sized_deleting h hadvance
  | clean => exact sized_clean h hadvance
  | returned => cases o <;> cases hadvance

end Turns

/-! ### What a failed `Set` leaves -/

section Failures

/-- A `Set` at its lock: the cache as it finds it, its key and its data. -/
structure Entered (K F : Type) where
  cache : Cache K F
  key : K
  data : Bytes

/-- The mark of a `Set` that has its lock. -/
def entering (s : Cache K F) (t : Call K) (mark : Option (Entered K F)) (_ : Call K) :
    Option (Entered K F) :=
  match t.point with
  | .set key data _ => some ⟨s, key, data⟩
  | _ => mark

/-- There is no room for the data beside the other entries. -/
def Entered.Full (e : Entered K F) : Prop :=
  e.cache.maxSize < e.cache.currSize - sizeOf e.cache e.key + e.data.length

/-- What a `Set` finds, less what it has evicted. -/
structure Kept (e : Entered K F) (s : Cache K F) : Prop where
  accounted : Accounted e.cache
  objects : s.objects = e.cache.objects
  entries : ∀ key m, s.entry key = some m → e.cache.entry key = some m
  own : s.entry e.key = e.cache.entry e.key
  evicted : s.metadata = e.cache.metadata ∨ e.Full

/-- The data file of the key is as the `Set` has found it. -/
def SameFile (getFilename : K → F) (e : Entered K F) (s : Cache K F) : Prop :=
  s.dataFiles.lookup (getFilename e.key) = e.cache.dataFiles.lookup (getFilename e.key)

/-- How the cache stands to what a `Set` that holds the lock has found. -/
def Setting (getFilename : K → F) (s : Cache K F) (mark : Option (Entered K F)) : Point K → Prop
  | .sweeping (.evictLRU key _ _) _ | .sweepingMeta (.evictLRU key _ _) _ _ =>
    ∃ e ∈ mark, e.key = key ∧ Kept e s ∧ SameFile getFilename e s ∧ e.Full
  | .writing key _ _ => ∃ e ∈ mark, e.key = key ∧ Kept e s ∧ SameFile getFilename e s
  | .stamping key _ _ | .saving key _ _ | .undoing key => ∃ e ∈ mark, e.key = key ∧ Kept e s
  | _ => True

/-- The call is a `Set` that has its lock. -/
def Point.setting : Point K → Bool
  | .sweeping (.evictLRU _ _ _) _ | .sweepingMeta (.evictLRU _ _ _) _ _ | .writing _ _ _
  | .stamping _ _ _ | .saving _ _ _ | .undoing _ => true
  | _ => false

/-- The turn returns an error from a `Set`. -/
def Point.fails : Point K → Outcome K → Bool
  | .writing _ _ _, .failed | .undoing _, _ => true
  | _, _ => false

/-- What a `Set` that fails is to leave. -/
structure Leaves (getFilename : K → F) (e : Entered K F) (s : Cache K F) : Prop where
  own : s.entry e.key = e.cache.entry e.key
  read : ∀ data m, e.cache.read getFilename e.key = some (data, m) →
    s.after m.expiry ∨ s.read getFilename e.key = some (data, m)
  entries : ∀ key m, s.entry key = some m → e.cache.entry key = some m
  evicted : s.metadata = e.cache.metadata ∨ e.Full
  currSize : s.metadata = e.cache.metadata → s.currSize = e.cache.currSize

variable {getFilename : K → F} {s s' : Cache K F} {point point' : Point K} {o : Outcome K}
  {seen : List (Event K)} {e : Entered K F} {mark : Option (Entered K F)} {key : K}

omit [DecidableEq F] in
theorem Kept.congr (h : Kept e s) (hmetadata : s'.metadata = s.metadata)
    (hobjects : s'.objects = s.objects) : Kept e s' := by
  have hentry : ∀ key, s'.entry key = s.entry key := fun key => by
    rw [Cache.entry, Cache.entry, hmetadata, hobjects]
  exact ⟨h.accounted, hobjects.trans h.objects, fun key m hm => h.entries key m (hentry key ▸ hm),
    (hentry e.key).trans h.own, h.evicted.imp_left hmetadata.trans⟩

omit [DecidableEq F] in
theorem Kept.drop (h : Kept e s) (hfull : e.Full) {key : K} (hne : key ≠ e.key) (size : ℕ) :
    Kept e (s.drop key size) := by
  refine ⟨h.accounted, h.objects, fun k m hm => ?_, ?_, .inr hfull⟩
  · rw [entry_drop_eq] at hm
    split_ifs at hm
    exact h.entries k m hm
  · rw [entry_drop_eq, if_neg hne]
    exact h.own

omit [DecidableEq K] in
theorem SameFile.removeData (h : SameFile getFilename e s) {key : K}
    (hne : getFilename key ≠ getFilename e.key) :
    SameFile getFilename e (s.removeData getFilename key) :=
  (AList.lookup_erase_ne (Ne.symm hne)).trans h

theorem setting_congr (h : Setting getFilename s mark point) (hmetadata : s'.metadata = s.metadata)
    (hobjects : s'.objects = s.objects) (hdata : s'.dataFiles = s.dataFiles) :
    Setting getFilename s' mark point := by
  have hfile : ∀ e, SameFile getFilename e s → SameFile getFilename e s' := fun e he => by
    rw [SameFile, hdata]
    exact he
  cases point with
  | sweeping sweep items =>
    cases sweep with
    | evictLRU key data ttl =>
      obtain ⟨e, he, hkey, hkept, hsame, hfull⟩ := h
      exact ⟨e, he, hkey, hkept.congr hmetadata hobjects, hfile e hsame, hfull⟩
    | cleanExpired => trivial
  | sweepingMeta sweep item items =>
    cases sweep with
    | evictLRU key data ttl =>
      obtain ⟨e, he, hkey, hkept, hsame, hfull⟩ := h
      exact ⟨e, he, hkey, hkept.congr hmetadata hobjects, hfile e hsame, hfull⟩
    | cleanExpired => trivial
  | writing key data ttl =>
    obtain ⟨e, he, hkey, hkept, hsame⟩ := h
    exact ⟨e, he, hkey, hkept.congr hmetadata hobjects, hfile e hsame⟩
  | stamping _ _ _ | saving _ _ _ | undoing _ =>
    obtain ⟨e, he, hkey, hkept⟩ := h
    exact ⟨e, he, hkey, hkept.congr hmetadata hobjects⟩
  | _ => trivial

/-- An error leaves what the `Set` has found where the old entry has no size, and can still be read
where it has one. -/
theorem leaves_of_kept (h : Kept e s) (hsize : s.currSize + sizeOf s e.key = total s)
    (hzero : sizeOf s e.key = 0) (hread : SameFile getFilename e s ∨ s.entry e.key = none) :
    Leaves getFilename e s := by
  refine ⟨h.own, fun data m hm => ?_, h.entries, h.evicted, fun hmetadata => ?_⟩
  · obtain ⟨m', hentry, hm'⟩ := Option.bind_eq_some_iff.mp hm
    split_ifs at hm' with hafter
    obtain ⟨d, hd, heq⟩ := Option.map_eq_some_iff.mp hm'
    obtain ⟨rfl, rfl⟩ := Prod.mk.inj heq
    rcases hread with hsame | hnone
    · rw [or_iff_not_imp_left]
      intro hnot
      rw [Cache.read, h.own, hentry, Option.bind_some, if_neg hnot, hsame, hd]
      rfl
    · rw [← h.own, hnone] at hentry
      cases hentry
  · have htotal : total s = total e.cache := by
      rw [total, total, hmetadata, h.objects]
    have haccounted : e.cache.currSize = total e.cache := h.accounted
    rw [hzero, htotal] at hsize
    rw [haccounted, ← hsize]
    exact (Int.add_zero _).symm

theorem setting_of_other (hpoint : point.setting = false) : Setting getFilename s mark point := by
  cases point with
  | sweeping sweep items | sweepingMeta sweep item items =>
    cases sweep with
    | evictLRU key data ttl => cases hpoint
    | cleanExpired => trivial
  | writing | stamping | saving | undoing => cases hpoint
  | _ => trivial

theorem setting_of_unlocked (hpoint : point.locked = false) : Setting getFilename s mark point := by
  cases point with
  | sweeping | sweepingMeta | writing | stamping | saving | undoing | deleting => cases hpoint
  | set | get | checking | reading | touching | delete | clean | returned => trivial

/-- Only `Set` goes on to the points of a `Set`. -/
theorem setting_advance_other (hpoint : point.setting = false)
    (hset : ∀ key data ttl, point ≠ .set key data ttl)
    (h : advance getFilename s point o = some (s', point', seen)) : point'.setting = false := by
  cases point with
  | set key data ttl => exact absurd rfl (hset key data ttl)
  | sweeping sweep items =>
    cases sweep with
    | evictLRU key data ttl => cases hpoint
    | cleanExpired =>
      cases o with
      | turn =>
        simp only [advance] at h
        split_ifs at h
        obtain ⟨rfl, rfl, rfl⟩ : _ ∧ _ ∧ _ := by simpa using h
        rfl
      | ok | failed =>
        cases items <;> simp only [advance, reduceCtorEq] at h
        split_ifs at h
        obtain ⟨rfl, rfl, rfl⟩ : _ ∧ _ ∧ _ := by simpa using h
        rfl
      | range => cases items <;> simp only [advance, reduceCtorEq] at h
  | sweepingMeta sweep item items =>
    cases sweep with
    | evictLRU key data ttl => cases hpoint
    | cleanExpired =>
      cases o <;> simp only [advance, reduceCtorEq] at h <;>
        obtain ⟨rfl, rfl, rfl⟩ : _ ∧ _ ∧ _ := by simpa using h
      · rfl
      · rfl
  | writing | stamping | saving | undoing => cases hpoint
  | get key =>
    cases o <;> simp only [advance, reduceCtorEq] at h
    split_ifs at h
    split at h <;> obtain ⟨rfl, rfl, rfl⟩ : _ ∧ _ ∧ _ := by simpa using h
    · rfl
    · rfl
  | checking key object =>
    cases o <;> simp only [advance, reduceCtorEq] at h
    obtain ⟨m, hm, hnext⟩ := Option.map_eq_some_iff.mp h
    obtain ⟨rfl, rfl, rfl⟩ : _ ∧ _ ∧ _ := by simpa using hnext
    split_ifs <;> rfl
  | reading key object =>
    cases o <;> simp only [advance, reduceCtorEq] at h
    · split at h <;> obtain ⟨rfl, rfl, rfl⟩ : _ ∧ _ ∧ _ := by simpa using h
      · rfl
      · rfl
    · obtain ⟨rfl, rfl, rfl⟩ : _ ∧ _ ∧ _ := by simpa using h
      rfl
  | touching key object data =>
    simp only [advance] at h
    split_ifs at h
    obtain ⟨m, -, hnext⟩ := Option.bind_eq_some_iff.mp h
    cases o <;> simp only [reduceCtorEq] at hnext <;>
      obtain ⟨rfl, rfl, rfl⟩ : _ ∧ _ ∧ _ := by simpa using hnext
    · rfl
    · rfl
  | delete key =>
    simp only [advance] at h
    split_ifs at h
    split at h
    · obtain ⟨rfl, rfl, rfl⟩ : _ ∧ _ ∧ _ := by simpa using h
      rfl
    · obtain ⟨rfl, rfl, rfl⟩ : _ ∧ _ ∧ _ := by simpa using h
      rfl
    · obtain ⟨rfl, rfl, rfl⟩ : _ ∧ _ ∧ _ := by simpa using h
      rfl
    · cases h
  | deleting key object =>
    simp only [advance] at h
    obtain ⟨m, -, hnext⟩ := Option.bind_eq_some_iff.mp h
    cases o <;> simp only [reduceCtorEq] at hnext <;>
      obtain ⟨rfl, rfl, rfl⟩ : _ ∧ _ ∧ _ := by simpa using hnext
    · rfl
    · rfl
  | clean =>
    cases o <;> simp only [advance, reduceCtorEq] at h
    split_ifs at h
    obtain ⟨rfl, rfl, rfl⟩ : _ ∧ _ ∧ _ := by simpa using h
    rfl
  | returned => cases o <;> simp only [advance, reduceCtorEq] at h

/-- A turn keeps how the cache stands to what its `Set` has found, or leaves what the `Set` is to
leave. -/
theorem setting_advance (process : ℕ) (t' : Call K) (hfree : s.mutex = false → Accounted s)
    (hheld : point.locked = true → Holding getFilename s point)
    (hsetting : Setting getFilename s mark point) (hok : Unharmed getFilename s point o)
    (h : advance getFilename s point o = some (s', point', seen)) :
    Setting getFilename s' (entering s ⟨process, point⟩ mark t') point' ∧
      (point.fails o = true → ∃ e ∈ mark, Leaves getFilename e s') := by
  cases point with
  | set key data ttl =>
    cases o with
    | range entries =>
      refine ⟨?_, fun hfails => by cases hfails⟩
      simp only [advance] at h
      split_ifs at h with hentries
      obtain ⟨rfl, rfl, rfl⟩ : _ ∧ _ ∧ _ := by simpa using h
      have hkept : Kept ⟨s, key, data⟩ (s.beginSet key data ttl entries).1 :=
        ⟨hfree hentries.1, rfl, fun _ _ => id, rfl, .inl rfl⟩
      rw [Cache.beginSet] at hkept ⊢
      simp only at hkept ⊢
      split_ifs with hfull
      · exact ⟨_, rfl, rfl, hkept, rfl, hfull⟩
      · exact ⟨_, rfl, rfl, hkept, rfl⟩
    | turn | ok | failed => simp only [advance, reduceCtorEq] at h
  | sweeping sweep items =>
    refine ⟨?_, fun hfails => by cases hfails⟩
    cases sweep with
    | cleanExpired => exact setting_of_other (setting_advance_other rfl (by simp) h)
    | evictLRU key data ttl =>
      obtain ⟨e, he, rfl, hkept, hsame, hfull⟩ := hsetting
      cases o with
      | turn =>
        simp only [advance] at h
        split_ifs at h
        obtain ⟨rfl, rfl, rfl⟩ : _ ∧ _ ∧ _ := by simpa using h
        exact ⟨e, he, rfl, hkept, hsame⟩
      | ok =>
        cases items <;> simp only [advance, reduceCtorEq] at h
        split_ifs at h
        obtain ⟨rfl, rfl, rfl⟩ : _ ∧ _ ∧ _ := by simpa using h
        exact ⟨e, he, rfl, hkept.congr rfl rfl, hsame.removeData hok, hfull⟩
      | failed =>
        cases items <;> simp only [advance, reduceCtorEq] at h
        split_ifs at h
        obtain ⟨rfl, rfl, rfl⟩ : _ ∧ _ ∧ _ := by simpa using h
        exact ⟨e, he, rfl, hkept, hsame, hfull⟩
      | range => cases items <;> simp only [advance, reduceCtorEq] at h
  | sweepingMeta sweep item items =>
    refine ⟨?_, fun hfails => by cases hfails⟩
    cases sweep with
    | cleanExpired => exact setting_of_other (setting_advance_other rfl (by simp) h)
    | evictLRU key data ttl =>
      obtain ⟨e, he, rfl, hkept, hsame, hfull⟩ := hsetting
      obtain ⟨-, -, hspares⟩ := hheld rfl
      have hne : item.key ≠ e.key := fun heq => hspares (congrArg getFilename heq)
      cases o <;> simp only [advance, reduceCtorEq] at h <;>
        obtain ⟨rfl, rfl, rfl⟩ : _ ∧ _ ∧ _ := by simpa using h
      · have hremoved : Kept e (s.removeMeta getFilename item.key) := hkept.congr rfl rfl
        exact ⟨e, he, rfl, hremoved.drop hfull hne item.size, hsame, hfull⟩
      · exact ⟨e, he, rfl, hkept.drop hfull hne item.size, hsame, hfull⟩
  | writing key data ttl =>
    obtain ⟨e, he, rfl, hkept, hsame⟩ := hsetting
    cases o <;> simp only [advance, reduceCtorEq] at h <;>
      obtain ⟨rfl, rfl, rfl⟩ : _ ∧ _ ∧ _ := by simpa using h
    · exact ⟨⟨e, he, rfl, hkept.congr rfl rfl⟩, fun hfails => by cases hfails⟩
    · have hunlocked : Kept e s.unlock := hkept.congr rfl rfl
      exact ⟨trivial, fun _ => ⟨e, he, leaves_of_kept hunlocked (hheld rfl) hok (.inl hsame)⟩⟩
  | stamping key data ttl =>
    obtain ⟨e, he, rfl, hkept⟩ := hsetting
    cases o <;> simp only [advance, reduceCtorEq] at h
    obtain ⟨rfl, rfl, rfl⟩ : _ ∧ _ ∧ _ := by simpa using h
    exact ⟨⟨e, he, rfl, hkept⟩, fun hfails => by cases hfails⟩
  | saving key data m =>
    obtain ⟨e, he, rfl, hkept⟩ := hsetting
    cases o <;> simp only [advance, reduceCtorEq] at h <;>
      obtain ⟨rfl, rfl, rfl⟩ : _ ∧ _ ∧ _ := by simpa using h
    · exact ⟨trivial, fun hfails => by cases hfails⟩
    · exact ⟨⟨e, he, rfl, hkept⟩, fun hfails => by cases hfails⟩
  | undoing key =>
    obtain ⟨e, he, rfl, hkept⟩ := hsetting
    have hnone : s.entry e.key = none := hok
    have hzero : sizeOf s e.key = 0 := by
      rw [sizeOf, hnone]
      rfl
    cases o <;> simp only [advance, reduceCtorEq] at h <;>
      obtain ⟨rfl, rfl, rfl⟩ : _ ∧ _ ∧ _ := by simpa using h
    · have hundone : Kept e (s.removeData getFilename e.key).unlock := hkept.congr rfl rfl
      exact ⟨trivial, fun _ => ⟨e, he, leaves_of_kept hundone (hheld rfl) hzero (.inr hnone)⟩⟩
    · have hundone : Kept e s.unlock := hkept.congr rfl rfl
      exact ⟨trivial, fun _ => ⟨e, he, leaves_of_kept hundone (hheld rfl) hzero (.inr hnone)⟩⟩
  | get | checking | reading | touching | delete | deleting | clean | returned =>
    refine ⟨setting_of_other (setting_advance_other rfl (by simp) h), fun hfails => ?_⟩
    cases hfails

end Failures

/-! ### Every run -/

section Runs

abbrev MarkedPool (K F : Type) := Pool (Cache K F) (Call K × Option (Entered K F)) (Event K)

abbrev CacheAction (K : Type) := Action (Outcome K) (External K)

/-- `DiskCache` with the marks. -/
def markedSystem (getFilename : K → F) :
    System (Cache K F) (Call K × Option (Entered K F)) (Event K) (Outcome K) (External K) :=
  (system getFilename).marked none entering

def newMarkedDiskCache (maxSize : ℤ) : MarkedPool K F := { shared := { maxSize := maxSize } }

/-- When no call has the lock, `currSize` is the sum of the sizes, and so not negative. -/
def SizesRight (p : MarkedPool K F) : Prop :=
  p.shared.mutex = false → p.shared.currSize = total p.shared ∧ 0 ≤ p.shared.currSize

/-- A `Set` that returns an error leaves what it is to leave. -/
def FailedSetRight (getFilename : K → F) (p : MarkedPool K F) (a : CacheAction K) : Prop :=
  ∀ q i o t, (markedSystem getFilename).step p a = some q → a = .resume i o →
    p.tasks[i]? = some t → t.1.point.fails o = true →
    ∃ e ∈ t.2, Leaves getFilename e q.shared

/-- Every turn is `Unharmed`. -/
def StepUnharmed (getFilename : K → F) (p : MarkedPool K F) (a : CacheAction K) : Prop :=
  ∀ i o t, a = .resume i o → p.tasks[i]? = some t → Unharmed getFilename p.shared t.1.point o

structure MarkedInv (getFilename : K → F) (p : MarkedPool K F) : Prop where
  inv : PoolInv getFilename p.unmark
  free : p.shared.mutex = false → Accounted p.shared
  held : ∀ t ∈ p.tasks, Holds p.shared t.1 = true →
    Holding getFilename p.shared t.1.point ∧ Setting getFilename p.shared t.2 t.1.point

variable {getFilename : K → F} {s : Cache K F} {p q : MarkedPool K F} {a : CacheAction K}

/-- The next process adds up the sizes of what it reads back. -/
theorem accounted_foldl (hnamed : s.Named getFilename) (htable : s.Tabled) (h : Accounted s)
    {files : List F} (hnodup : files.Nodup)
    (hnew : ∀ key, getFilename key ∈ files → s.entry key = none) :
    Accounted (files.foldl Cache.loadFile s) := by
  induction files generalizing s with
  | nil => exact h
  | cons file files ih =>
    obtain ⟨hfile, hnodup⟩ := List.nodup_cons.mp hnodup
    have hnamed' : (s.loadFile file).Named getFilename := fun f m hm =>
      hnamed f m (by simpa using hm)
    have hnew' : ∀ key, getFilename key ∈ files → (s.loadFile file).entry key = none := by
      intro key hkey
      have hne : getFilename key ≠ file := fun heq => hfile (heq ▸ hkey)
      rw [Cache.entry_loadFile hnamed htable, if_neg fun hcond => hne hcond.1]
      exact hnew key (List.mem_cons_of_mem _ hkey)
    have hloaded : Accounted (s.loadFile file) := by
      unfold Cache.loadFile
      cases hm : s.metaFiles.lookup file with
      | none => exact h
      | some m =>
        have hnone : s.entry m.key = none :=
          hnew m.key (hnamed file m hm ▸ List.mem_cons_self)
        have hzero : sizeOf s m.key = 0 := by
          rw [sizeOf, hnone]
          rfl
        have htotal := total_add htable m.key m
        rw [hzero, Nat.add_zero] at htotal
        have hsize : s.currSize = total s := h
        show s.currSize + (m.size : ℤ) = total (s.add m.key m)
        rw [htotal, hsize]
        omega
    exact ih hnamed' (htable.loadFile file) hloaded hnodup hnew'

theorem accounted_restart (hnamed : s.Named getFilename) : Accounted s.restart := by
  have hnamed' : s.reopen.Named getFilename := hnamed
  have hentry : ∀ key, s.reopen.entry key = none := fun key => by
    rw [Cache.entry, Cache.reopen, AList.lookup_empty]
    rfl
  exact accounted_foldl hnamed' Cache.tabled_reopen rfl s.dataFiles.keys_nodup fun key _ => hentry key

omit [DecidableEq F] in
theorem holding_tick {point : Point K} (h : Holding getFilename s point) (d : ℕ) :
    Holding getFilename { s with now := s.now + d } point := by
  cases point with
  | sweeping sweep items =>
    obtain ⟨hsize, hlisted⟩ := h
    cases sweep <;> exact ⟨hsize, hlisted.congr rfl rfl⟩
  | sweepingMeta sweep item items =>
    obtain ⟨hsize, hlisted, hspares⟩ := h
    cases sweep <;> exact ⟨hsize, hlisted.congr rfl rfl, hspares⟩
  | _ => exact h

/-- The call that takes a turn, and what holds the lock beside it. -/
theorem turn_spec {t : Call K × Option (Entered K F)}
    {others : List (Call K × Option (Entered K F))} {o : Outcome K} {r : CacheTurn K F}
    {trace : List (Event K)} (hinv : Inv getFilename s (t.1 :: others.map Prod.fst) trace)
    (hr : resume getFilename s t.1 o = some r) :
    r.shared.process = s.process ∧ (t.1.point.locked = true → s.mutex = true) ∧
      ∀ u ∈ others, Holds s u.1 = true → s.mutex = true ∧ t.1.point.locked = false := by
  obtain ⟨hprocess, -, -, -⟩ := resume_cases hr
  have hlock := hinv.lock
  have hle : s.mutex.toNat ≤ 1 := Bool.toNat_le _
  refine ⟨(inv_resume hinv hr).2.process, fun hl => ?_, fun u hu hholds => ?_⟩
  · rw [List.countP_cons_of_pos (holds_iff.mpr ⟨hprocess, hl⟩)] at hlock
    have hmutex : s.mutex.toNat = 1 := by omega
    cases hm : s.mutex with
    | true => rfl
    | false => simp [hm] at hmutex
  · have hpos : 0 < (others.map Prod.fst).countP (Holds s) :=
      List.countP_pos_iff.mpr ⟨u.1, List.mem_map_of_mem hu, hholds⟩
    rw [List.countP_cons] at hlock
    split_ifs at hlock with hheld
    · omega
    · refine ⟨?_, ?_⟩
      · cases hm : s.mutex with
        | true => rfl
        | false =>
          rw [hm, Bool.toNat_false] at hlock
          omega
      · rw [holds_iff] at hheld
        exact Bool.eq_false_iff.mpr fun hl => hheld ⟨hprocess, hl⟩

theorem markedInv_step (h : MarkedInv getFilename p) (hok : StepUnharmed getFilename p a)
    (hs : (markedSystem getFilename).step p a = some q) :
    MarkedInv getFilename q ∧ FailedSetRight getFilename p a := by
  have hinv := poolInv_step h.inv (step_unmark hs)
  obtain ⟨i, o, t, r, others, rfl, ht, hr, hshared, -, hp, hq⟩ |
    ⟨e, r, rfl, hr, hshared, -, hq⟩ := System.step_perm hs
  · obtain ⟨r', hr', rfl⟩ := Option.map_eq_some_iff.mp hr
    obtain ⟨hprocess, -, hspawned, hadvance⟩ := resume_cases hr'
    have hpool : Inv getFilename p.shared (t.1 :: others.map Prod.fst) p.trace :=
      Inv.perm h.inv (hp.map Prod.fst).symm
    obtain ⟨hsame, hlocked, hothers⟩ := turn_spec hpool hr'
    have hmem : t ∈ p.tasks := List.mem_of_getElem? ht
    have hunharmed := hok i o t rfl ht
    have hheld : t.1.point.locked = true → Holding getFilename p.shared t.1.point ∧
        Setting getFilename p.shared t.2 t.1.point := fun hl =>
      h.held t hmem (holds_iff.mpr ⟨hprocess, hl⟩)
    have hsetting : Setting getFilename p.shared t.2 t.1.point := by
      cases hl : t.1.point.locked with
      | true => exact (hheld hl).2
      | false => exact setting_of_unlocked hl
    have hsized := sized_advance h.inv.table hlocked ⟨fun hl => (hheld hl).1, h.free⟩ hunharmed
      hadvance
    obtain ⟨hsetting', hleaves⟩ := setting_advance t.1.process r'.task h.free
      (fun hl => (hheld hl).1) hsetting hunharmed hadvance
    refine ⟨⟨hinv, ?_, ?_⟩, ?_⟩
    · rw [hshared]
      exact hsized.free
    · intro u hu hholds
      rw [hshared] at hholds ⊢
      rw [hspawned] at hq
      rcases List.mem_cons.mp (hq.mem_iff.mp hu) with rfl | hu
      · exact ⟨hsized.held (holds_iff.mp hholds).2, hsetting'⟩
      · -- Another call has the lock, so this turn changes nothing.
        rw [Holds, hsame] at hholds
        obtain ⟨hmutex, hunlocked⟩ := hothers u hu hholds
        rw [eq_of_locked_elsewhere hunlocked hmutex hadvance]
        exact h.held u (hp.mem_iff.mpr (List.mem_cons_of_mem _ hu)) hholds
    · rintro q' i' o' t' hs' hi ht' hfails
      obtain ⟨rfl, rfl⟩ := Action.resume.inj hi
      obtain rfl := Option.some.inj (ht.symm.trans ht')
      obtain rfl := Option.some.inj (hs.symm.trans hs')
      rw [hshared]
      exact hleaves hfails
  · obtain ⟨r', hr', rfl⟩ := Option.map_eq_some_iff.mp hr
    refine ⟨⟨hinv, ?_, ?_⟩, fun q' i' o' t' _ hi => by cases hi⟩
    · rw [hshared]
      cases e with
      | restart =>
        obtain rfl := (Option.some.inj hr').symm
        exact fun _ => accounted_restart h.inv.named
      | set | get | delete | clean | tick =>
        obtain rfl := (Option.some.inj hr').symm
        exact h.free
    · intro u hu hholds
      rw [hshared] at hholds ⊢
      rcases List.mem_append.mp (hq.mem_iff.mp hu) with hnew | hold
      · cases e with
        | set | get | delete | clean =>
          obtain rfl := (Option.some.inj hr').symm
          obtain rfl := List.mem_singleton.mp hnew
          exact absurd (holds_iff.mp hholds).2 (by simp [Point.locked])
        | tick | restart =>
          obtain rfl := (Option.some.inj hr').symm
          cases hnew
      · cases e with
        | set | get | delete | clean =>
          obtain rfl := (Option.some.inj hr').symm
          exact h.held u hold hholds
        | tick d =>
          obtain rfl := (Option.some.inj hr').symm
          obtain ⟨hholding, hsetting⟩ := h.held u hold hholds
          exact ⟨holding_tick hholding d, setting_congr hsetting rfl rfl rfl⟩
        | restart =>
          obtain rfl := (Option.some.inj hr').symm
          have hle : u.1.process ≤ p.shared.process :=
            h.inv.processes u.1 (List.mem_map_of_mem hold)
          have heq := (holds_iff.mp hholds).1
          rw [Cache.restart_process] at heq
          omega

/-- Where a `Set` evicts nothing of its own file, and does not fail when its key has an entry with a
size, `currSize` is the sum of the sizes in every state in which the lock is free, and a `Set` that
fails leaves its key, what it reads, and all that it has not evicted for room. -/
theorem accounted_of_unharmed (getFilename : K → F) (maxSize : ℤ) {actions : List (CacheAction K)}
    (h : (markedSystem getFilename).Along (StepUnharmed getFilename) (newMarkedDiskCache maxSize)
      actions) :
    (markedSystem getFilename).Throughout SizesRight (newMarkedDiskCache maxSize) actions ∧
      (markedSystem getFilename).Along (FailedSetRight getFilename) (newMarkedDiskCache maxSize)
        actions := by
  have hnew : MarkedInv getFilename (newMarkedDiskCache maxSize : MarkedPool K F) :=
    ⟨poolInv_newDiskCache getFilename maxSize, fun _ => rfl, fun t ht => by cases ht⟩
  have hthroughout : (markedSystem getFilename).Throughout (MarkedInv getFilename)
      (newMarkedDiskCache maxSize) actions :=
    System.throughout_of_along (fun p a q hp ha hs => (markedInv_step hp ha hs).1) hnew h
  refine ⟨hthroughout.mono fun p hp hfree => ?_, h.imp
    (fun p a q hp ha hs => (markedInv_step hp ha hs).1)
    (fun p a q hp ha hs => (markedInv_step hp ha hs).2) hnew⟩
  have hsize : p.shared.currSize = total p.shared := hp.free hfree
  exact ⟨hsize, hsize ▸ Int.natCast_nonneg _⟩

/-- A first `Set` that cannot write its data. -/
theorem accounted_of_unharmed_first :
    (markedSystem (id : ℕ → ℕ)).Throughout SizesRight (newMarkedDiskCache 1000)
        [.event (.set 7 [1] 100), .resume 0 (.range []), .resume 0 .failed] ∧
      (markedSystem (id : ℕ → ℕ)).Along (FailedSetRight id) (newMarkedDiskCache 1000)
        [.event (.set 7 [1] 100), .resume 0 (.range []), .resume 0 .failed] := by
  refine accounted_of_unharmed id 1000 fun q hq => ⟨fun i o t ha => absurd ha (by simp), ?_⟩
  obtain rfl := Option.some.inj hq
  refine fun q hq => ⟨?_, ?_⟩
  · intro i o t ha ht
    obtain ⟨rfl, rfl⟩ := Action.resume.inj ha
    obtain rfl := Option.some.inj ht
    trivial
  · obtain rfl := Option.some.inj hq
    refine fun q hq => ⟨?_, trivial⟩
    intro i o t ha ht
    obtain ⟨rfl, rfl⟩ := Action.resume.inj ha
    obtain rfl := Option.some.inj ht
    rfl

/-- A `Set`, and a second one of its key up to the first write. -/
def overwrite : List (CacheAction ℕ) :=
  [.event (.set 7 [1] 100), .resume 0 (.range []), .resume 0 .ok, .resume 0 .turn, .resume 0 .ok,
    .event (.set 7 [2, 2] 100), .resume 1 (.range [⟨7, 0⟩])]

/-- Where the data cannot be written the old size is lost, and where the metadata cannot the old
data. -/
theorem failed_overwrite :
    ¬(∀ actions, (markedSystem (id : ℕ → ℕ)).Throughout SizesRight (newMarkedDiskCache 1000)
      actions) ∧
    ¬∀ actions, (markedSystem (id : ℕ → ℕ)).Along (FailedSetRight id) (newMarkedDiskCache 1000)
      actions := by
  constructor
  · intro hall
    obtain ⟨p, hp, hfree, hsize, htotal⟩ : ∃ p, (markedSystem (id : ℕ → ℕ)).run
        (newMarkedDiskCache 1000) (overwrite ++ [.resume 1 .failed]) = some p ∧
        p.shared.mutex = false ∧ p.shared.currSize = 0 ∧ total p.shared = 1 :=
      ⟨_, rfl, rfl, by decide, by decide⟩
    have hright := ((hall _).last hp hfree).1
    rw [hsize, htotal] at hright
    exact absurd hright (by decide)
  · intro hall
    obtain ⟨p, hp, t, ht, e, he, hread, q, hq, hafter, hnone⟩ : ∃ p, (markedSystem (id : ℕ → ℕ)).run
        (newMarkedDiskCache 1000) (overwrite ++ [.resume 1 .ok, .resume 1 .turn,
          .resume 1 .failed]) = some p ∧ ∃ t, p.tasks[1]? = some t ∧ ∃ e, t.2 = some e ∧
        (e.key = 7 ∧ t.1.point.fails .ok = true ∧
          e.cache.read id 7 = some ([1], ⟨7, 100, 0, 1, 0⟩)) ∧
        ∃ q, (markedSystem (id : ℕ → ℕ)).step p (.resume 1 .ok) = some q ∧
          ¬q.shared.after 100 ∧ q.shared.read id 7 = none :=
      ⟨_, rfl, _, rfl, _, rfl, ⟨rfl, rfl, by decide⟩, _, rfl, by decide, by decide⟩
    obtain ⟨hkey, hfails, hread⟩ := hread
    have hlast := ((hall (_ ++ [.resume 1 .ok])).append hp).2
    obtain ⟨e', he', hleaves⟩ := (hlast q hq).1 q 1 .ok t hq rfl ht hfails
    obtain rfl := Option.some.inj (he.symm.trans he')
    rw [← hkey] at hread hnone
    rcases hleaves.read _ _ hread with hexpired | hstill
    · exact hafter hexpired
    · rw [hnone] at hstill
      cases hstill

end Runs

end AllInOneBackup.PanSou.DiskCache
