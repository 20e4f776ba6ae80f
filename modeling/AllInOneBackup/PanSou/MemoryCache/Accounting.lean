import AllInOneBackup.PanSou.MemoryCache.Shards

/-! The size of a shard. A `SetWithTimestamp` takes the size of the old item off and may then evict
that item too, and it evicts one item, however much room the new one needs. -/

namespace AllInOneBackup.PanSou.MemoryCache

open Concurrency TwoLevel

variable {K D : Type} [DecidableEq K]

/-! ### The properties -/

section Properties

variable (c : Config K D)

/-- `currSize` of every shard is the size of its items. -/
def Accounted (s : Levels K D) : Prop := ∀ shard, s.currSize shard = total c s shard

/-- A condition on the turns of calls, in the state before. -/
def OnTurn (ok : Levels K D → Point K D → Outcome K → Prop) (p : CachePool K D)
    (a : Action (Outcome K) (External K D)) : Prop :=
  ∀ i o t, a = .resume i o → p.tasks[i]? = some t → ok p.shared t o

/-- `SetWithTimestamp` does not evict the item of its own key, unless that takes no room, and a read
removes an item of the size of the expired one it has found. -/
def KeepsAccount (s : Levels K D) : Point K D → Outcome K → Prop
  | .set key data _ _, .range keys =>
    ∀ e, victim c s key data keys = some e → e.1 = key → e.2.size = 0
  | .expiring key item, .turn => sizeOf s key = item.size
  | _, _ => True

instance (s : Levels K D) : ∀ t o, Decidable (KeepsAccount c s t o)
  | .set _ data _ _, .range _ => Option.decidableForallMem _
  | .expiring _ _, .turn => inferInstanceAs (Decidable (_ = _))
  | .set _ _ _ _, .turn | .expiring _ _, .range _ | .get _, _ | .looked _ _, _ | .delete _, _
  | .cleaning _ _, _ | .clearing _, _ | .returned _, _ => .isTrue (by trivial)

/-- A `SetWithTimestamp` that has to make room evicts an item, and that is room enough. -/
def MakesRoom (s : Levels K D) : Point K D → Outcome K → Prop
  | .set key data _ _, .range keys => crowded c s key data keys →
    ∃ e, victim c s key data keys = some e ∧ ((c.size data : ℤ) ≤ c.sizePerShard →
      s.currSize (c.shard key) - sizeOf s key - e.2.size + c.size data ≤ c.sizePerShard)
  | _, _ => True

instance (s : Levels K D) : ∀ t o, Decidable (MakesRoom c s t o)
  | .set key data _ _, .range keys =>
    have : Decidable (∃ e ∈ victim c s key data keys, (c.size data : ℤ) ≤ c.sizePerShard →
      s.currSize (c.shard key) - sizeOf s key - e.2.size + c.size data ≤ c.sizePerShard) :=
      inferInstance
    inferInstanceAs (Decidable (crowded c s key data keys → _))
  | .set _ _ _ _, .turn | .expiring _ _, _ | .get _, _ | .looked _ _, _ | .delete _, _
  | .cleaning _ _, _ | .clearing _, _ | .returned _, _ => .isTrue (by trivial)

/-- A `SetWithTimestamp` leaves its item, and a shard within its bounds. -/
def Stored (s : Levels K D) : Point K D → Prop
  | .set key data _ _ => (∃ item, s.items.lookup key = some item ∧ item.data = data) ∧
    ((c.size data : ℤ) ≤ c.sizePerShard → count c s (c.shard key) ≤ c.itemsPerShard ∧
      (total c s (c.shard key) : ℤ) ≤ c.sizePerShard)
  | _ => True

def SetsRight (shardCount : ℕ) (p : CachePool K D) (a : Action (Outcome K) (External K D)) : Prop :=
  ∀ q i o t, (system c shardCount).step p a = some q → a = .resume i o → p.tasks[i]? = some t →
    Stored c q.shared t

end Properties

/-! ### The size of a shard -/

section Sizes

variable {c : Config K D} {s : Levels K D} {key : K} {data : D} {ttl lastModified : ℤ}
  {keys : List K} {shard : ℕ} {e : K × Item D}

theorem sizeOf_deleteItem (s : Levels K D) (k key : K) (size : ℕ) :
    sizeOf (s.deleteItem c k size) key = if k = key then 0 else sizeOf s key := by
  rw [sizeOf, Levels.deleteItem]
  split_ifs with h
  · subst h
    rw [AList.lookup_erase]
    rfl
  · rw [AList.lookup_erase_ne (Ne.symm h)]
    rfl

theorem victim_spec (h : victim c s key data keys = some e) :
    crowded c s key data keys ∧ c.shard e.1 = c.shard key ∧ s.items.lookup e.1 = some e.2 := by
  unfold victim at h
  split_ifs at h with hcrowded
  obtain ⟨hold, -⟩ := Option.filter_eq_some_iff.mp h
  have hmem := Levels.mem_of_oldest hold
  refine ⟨hcrowded, ?_, Levels.mem_shardItems hmem⟩
  obtain ⟨k, hk, hitem⟩ := List.mem_filterMap.mp hmem
  obtain ⟨item, -, rfl⟩ := Option.map_eq_some_iff.mp hitem
  exact of_decide_eq_true (List.mem_filter.mp hk).2

theorem accounted_deleteItem_iff (h : Accounted c s) (size : ℕ) :
    Accounted c (s.deleteItem c key size) ↔ sizeOf s key = size := by
  have htotal := total_deleteItem c s key size
  constructor
  · intro hafter
    have hkey := hafter (c.shard key)
    have hbefore := h (c.shard key)
    have hsum := htotal (c.shard key)
    rw [if_pos rfl] at hsum
    simp only [Levels.deleteItem, Function.update_self] at hkey
    simp only [Levels.deleteItem] at hsum
    omega
  · intro hsize i
    have hsum := htotal i
    have hbefore := h i
    simp only [Levels.deleteItem] at hsum ⊢
    rcases eq_or_ne i (c.shard key) with rfl | hne
    · rw [if_pos rfl] at hsum
      rw [Function.update_self]
      omega
    · rw [if_neg (Ne.symm hne)] at hsum
      rw [Function.update_of_ne hne]
      omega

theorem currSize_set (c : Config K D) (s : Levels K D) (key : K) (data : D)
    (ttl lastModified : ℤ) (keys : List K) :
    (s.setWithTimestamp c key data ttl lastModified keys).1.currSize =
      Function.update s.currSize (c.shard key) (s.currSize (c.shard key) - sizeOf s key -
        (victim c s key data keys).elim 0 (·.2.size) + c.size data) := by
  rw [setWithTimestamp_eq]
  cases hv : victim c s key data keys with
  | none =>
    simp only [without, subtractOld, Levels.storeItem, Function.update_self, Function.update_idem,
      Option.elim_none, Nat.cast_zero, sub_zero]
  | some e =>
    have hshard := (victim_spec hv).2.1
    simp only [without, subtractOld, Levels.storeItem, Levels.deleteItem, hshard,
      Function.update_self, Function.update_idem, Option.elim_some]

theorem total_set (c : Config K D) (s : Levels K D) (key : K) (data : D)
    (ttl lastModified : ℤ) (keys : List K) (shard : ℕ) :
    total c (s.setWithTimestamp c key data ttl lastModified keys).1 shard +
        (if c.shard key = shard then
          sizeOf (without c (subtractOld c s key) (victim c s key data keys)) key +
            (victim c s key data keys).elim 0 (·.2.size) else 0) =
      total c s shard + if c.shard key = shard then c.size data else 0 := by
  rw [setWithTimestamp_eq]
  have hstore := total_storeItem c (without c (subtractOld c s key) (victim c s key data keys)) key
    data ttl lastModified shard
  cases hv : victim c s key data keys with
  | none =>
    rw [hv] at hstore
    have hsame : total c (without c (subtractOld c s key) none) shard = total c s shard := rfl
    rw [hsame] at hstore
    simpa using hstore
  | some e =>
    obtain ⟨-, hshard, hlookup⟩ := victim_spec hv
    rw [hv] at hstore
    have hdelete := total_deleteItem c (subtractOld c s key) e.1 e.2.size shard
    have hsize : sizeOf (subtractOld c s key) e.1 = e.2.size := by
      rw [sizeOf, subtractOld]
      simp only [hlookup, Option.map_some, Option.getD_some]
    have hsame : total c (subtractOld c s key) shard = total c s shard := rfl
    rw [hshard, hsize, hsame] at hdelete
    simp only [without, Option.elim_some] at hstore ⊢
    split_ifs at hstore hdelete ⊢ <;> omega

theorem accounted_set_iff (h : Accounted c s) :
    Accounted c (s.setWithTimestamp c key data ttl lastModified keys).1 ↔
      ∀ e, victim c s key data keys = some e → e.1 = key → e.2.size = 0 := by
  have hcurr := currSize_set c s key data ttl lastModified keys
  have htotal := total_set c s key data ttl lastModified keys
  have hold : sizeOf (without c (subtractOld c s key) (victim c s key data keys)) key =
      sizeOf s key ↔ ∀ e, victim c s key data keys = some e → e.1 = key → e.2.size = 0 := by
    cases hv : victim c s key data keys with
    | none =>
      refine ⟨fun _ e he => ?_, fun _ => rfl⟩
      cases he
    | some e =>
      have hlookup := (victim_spec hv).2.2
      rw [without, sizeOf_deleteItem]
      by_cases hkey : e.1 = key
      · have hsize : sizeOf s key = e.2.size := by
          rw [sizeOf, ← hkey, hlookup]
          rfl
        rw [if_pos hkey, hsize]
        constructor
        · rintro hzero _ ⟨⟩ -
          exact hzero.symm
        · exact fun hzero => (hzero e rfl hkey).symm
      · rw [if_neg hkey]
        refine ⟨?_, fun _ => rfl⟩
        rintro - _ ⟨⟩ hown
        exact absurd hown hkey
  rw [← hold]
  constructor
  · intro hafter
    have hkey := hafter (c.shard key)
    have hbefore := h (c.shard key)
    have hsum := htotal (c.shard key)
    rw [if_pos rfl, if_pos rfl] at hsum
    rw [hcurr, Function.update_self] at hkey
    omega
  · intro hsize i
    have hbefore := h i
    have hsum := htotal i
    rw [hcurr]
    rcases eq_or_ne i (c.shard key) with rfl | hne
    · rw [if_pos rfl, if_pos rfl, hsize] at hsum
      rw [Function.update_self]
      omega
    · rw [if_neg (Ne.symm hne), if_neg (Ne.symm hne)] at hsum
      rw [Function.update_of_ne hne]
      omega

theorem accounted_touch (h : Accounted c s) (key : K) (object : ℕ) :
    Accounted c (s.touch key object) := by
  unfold Levels.touch
  cases hitem : s.items.lookup key with
  | none => exact h
  | some item =>
    simp only
    split_ifs with hobject
    · intro shard
      rw [h shard, total, total, Data.TableSum.sum_insert]
      have herase := Data.TableSum.sum_erase_add
        (fun key item => if c.shard key = shard then item.size else 0) s.items key
      rw [hitem] at herase
      simp only [Option.map_some, Option.getD_some] at herase
      rw [← herase, Nat.add_comm]
    · exact h

theorem accounted_foldl {items : List (K × Item D)} (h : Accounted c s)
    (hnodup : (items.map Prod.fst).Nodup)
    (hitems : ∀ e ∈ items, s.items.lookup e.1 = some e.2) :
    Accounted c (items.foldl (fun s e => s.deleteItem c e.1 e.2.size) s) := by
  induction items generalizing s with
  | nil => exact h
  | cons e items ih =>
    rw [List.map_cons, List.nodup_cons] at hnodup
    have hsize : sizeOf s e.1 = e.2.size := by
      rw [sizeOf, hitems e List.mem_cons_self]
      rfl
    refine ih ((accounted_deleteItem_iff h e.2.size).mpr hsize) hnodup.2 fun x hx => ?_
    have hne : x.1 ≠ e.1 := fun heq => hnodup.1 (heq ▸ List.mem_map_of_mem hx)
    have herase : (s.deleteItem c e.1 e.2.size).items.lookup x.1 = s.items.lookup x.1 :=
      AList.lookup_erase_ne hne
    rw [herase]
    exact hitems x (List.mem_cons_of_mem _ hx)

theorem nodup_shardItems (c : Config K D) (s : Levels K D) (shard : ℕ) (hkeys : keys.Nodup) :
    ((s.shardItems c shard keys).map Prod.fst).Nodup := by
  have hsublist := Data.TableSum.map_fst_filterMap_sublist id s.items.lookup
    (keys.filter fun key => c.shard key = shard)
  rw [List.map_id] at hsublist
  exact (hkeys.filter _).sublist hsublist

theorem accounted_cleanShard (h : Accounted c s) (now : ℤ) (shard : ℕ) :
    Accounted c (cleanShard c s now shard) := by
  refine accounted_foldl h ?_ fun e he => Levels.mem_shardItems (List.mem_filter.mp he).1
  exact (nodup_shardItems c s shard s.items.keys_nodup).sublist (List.filter_sublist.map _)

theorem mem_foldl_erase {t : DiskCache.Table K (Item D)} {k : K} (ks : List K)
    (h : k ∈ ks.foldl (fun t key => t.erase key) t) : k ∈ t ∧ k ∉ ks := by
  induction ks generalizing t with
  | nil => exact ⟨h, List.not_mem_nil⟩
  | cons key ks ih =>
    obtain ⟨hmem, hnot⟩ := ih h
    rw [AList.mem_erase] at hmem
    exact ⟨hmem.2, List.not_mem_cons_of_ne_of_not_mem hmem.1 hnot⟩

theorem sum_foldl_erase {t : DiskCache.Table K (Item D)} {f : K → Item D → ℕ} {ks : List K}
    (h : ∀ k ∈ ks, ∀ item, f k item = 0) :
    Data.TableSum.sum f (ks.foldl (fun t key => t.erase key) t) = Data.TableSum.sum f t := by
  induction ks generalizing t with
  | nil => rfl
  | cons key ks ih =>
    rw [List.foldl_cons, ih fun k hk => h k (List.mem_cons_of_mem _ hk)]
    have herase := Data.TableSum.sum_erase_add f t key
    cases hlookup : t.lookup key with
    | none => simpa [hlookup] using herase
    | some item => simpa [hlookup, h key List.mem_cons_self item] using herase

theorem accounted_clearShard (h : Accounted c s) (shard : ℕ) :
    Accounted c (clearShard c s shard) := by
  intro i
  rw [clearShard, total]
  simp only
  rcases eq_or_ne i shard with rfl | hne
  · rw [Function.update_self]
    symm
    rw [Nat.cast_eq_zero, Data.TableSum.sum, List.sum_eq_zero_iff]
    intro n hn
    obtain ⟨e, he, rfl⟩ := List.mem_map.mp hn
    have hmem := mem_foldl_erase _ (AList.mem_keys.mpr (List.mem_map_of_mem he))
    refine if_neg fun hshard => hmem.2 (List.mem_filter.mpr ⟨?_, decide_eq_true hshard⟩)
    exact AList.mem_keys.mp hmem.1
  · rw [Function.update_of_ne hne, h i, total, sum_foldl_erase]
    intro k hk item
    have hshard := of_decide_eq_true (List.mem_filter.mp hk).2
    exact if_neg fun hi => hne (hi.symm.trans hshard)

end Sizes

/-! ### The number of the items -/

section Counts

variable {c : Config K D} {s : Levels K D} {key : K} {data : D} {ttl lastModified : ℤ}
  {keys : List K} {shard : ℕ}

theorem count_deleteItem (c : Config K D) (s : Levels K D) (key : K) (size shard : ℕ) :
    count c (s.deleteItem c key size) shard +
        ((s.items.lookup key).map fun _ => if c.shard key = shard then 1 else 0).getD 0 =
      count c s shard := by
  rw [count_eq, count_eq]
  exact Data.TableSum.sum_erase_add (fun key _ => if c.shard key = shard then 1 else 0) s.items key

theorem count_deleteItem_le (c : Config K D) (s : Levels K D) (key : K) (size shard : ℕ) :
    count c (s.deleteItem c key size) shard ≤ count c s shard := by
  have hcount := count_deleteItem c s key size shard
  omega

theorem count_storeItem_le (c : Config K D) (s : Levels K D) (key : K) (data : D)
    (ttl lastModified : ℤ) (shard : ℕ) :
    count c (s.storeItem c key data ttl lastModified) shard ≤
      (if c.shard key = shard then 1 else 0) + count c s shard := by
  have herase := Data.TableSum.sum_erase_add
    (fun key _ => if c.shard key = shard then 1 else 0) s.items key
  rw [count_eq, count_eq, Levels.storeItem, Data.TableSum.sum_insert]
  omega

/-- Where a shard that is full loses an item, no shard gets too many. -/
theorem count_set_le (h : ∀ shard, count c s shard ≤ c.itemsPerShard)
    (hkeys : keys.Perm s.items.keys)
    (hroom : crowded c s key data keys → ∃ e, victim c s key data keys = some e) (shard : ℕ) :
    count c (s.setWithTimestamp c key data ttl lastModified keys).1 shard ≤ c.itemsPerShard := by
  rw [setWithTimestamp_eq]
  have hstore := count_storeItem_le c (without c (subtractOld c s key) (victim c s key data keys))
    key data ttl lastModified shard
  refine hstore.trans ?_
  have hbefore := h shard
  have hsame : count c (subtractOld c s key) shard = count c s shard := rfl
  cases hv : victim c s key data keys with
  | none =>
    have hfew : ¬ crowded c s key data keys := fun hcrowded => by
      obtain ⟨e, he⟩ := hroom hcrowded
      rw [hv] at he
      cases he
    have hlength := length_shardItems (c := c) hkeys (c.shard key)
    have hlt := not_le.mp (not_or.mp hfew).1
    rw [without, hsame]
    split_ifs with hshard
    · rw [hshard] at hlength hlt
      omega
    · omega
  | some e =>
    obtain ⟨-, hshard, hlookup⟩ := victim_spec hv
    have hdelete := count_deleteItem c (subtractOld c s key) e.1 e.2.size shard
    have hitem : (subtractOld c s key).items.lookup e.1 = some e.2 := hlookup
    rw [hitem, hshard, hsame] at hdelete
    simp only [without, Option.map_some, Option.getD_some] at hdelete ⊢
    omega

theorem count_touch (s : Levels K D) (key : K) (object shard : ℕ) :
    count c (s.touch key object) shard = count c s shard := by
  unfold Levels.touch
  cases hitem : s.items.lookup key with
  | none => rfl
  | some item =>
    simp only
    split_ifs
    · have herase := Data.TableSum.sum_erase_add
        (fun key _ => if c.shard key = shard then 1 else 0) s.items key
      rw [hitem] at herase
      simp only [Option.map_some, Option.getD_some] at herase
      rw [count_eq, count_eq, Data.TableSum.sum_insert, ← herase, Nat.add_comm]
    · rfl

theorem count_foldl_le (items : List (K × Item D)) (s : Levels K D) (shard : ℕ) :
    count c (items.foldl (fun s e => s.deleteItem c e.1 e.2.size) s) shard ≤ count c s shard := by
  induction items generalizing s with
  | nil => exact le_refl _
  | cons e items ih => exact (ih _).trans (count_deleteItem_le c s e.1 e.2.size shard)

theorem count_clearShard_le (c : Config K D) (s : Levels K D) (cleared shard : ℕ) :
    count c (clearShard c s cleared) shard ≤ count c s shard := by
  rw [count, count, clearShard]
  refine List.Subperm.countP_le _ (List.subperm_of_subset (AList.keys_nodup _) fun k hk => ?_)
  exact AList.mem_keys.mp (mem_foldl_erase _ (AList.mem_keys.mpr hk)).1

end Counts

/-! ### Turns and runs -/

section Runs

variable {c : Config K D} {shardCount : ℕ} {s : Levels K D} {t : Point K D} {o : Outcome K}
  {r : Levels K D × Point K D} {p q : CachePool K D} {a : Action (Outcome K) (External K D)}

theorem accounted_advance_iff (h : Accounted c s) (hr : advance c s t o = some r) :
    KeepsAccount c s t o ↔ Accounted c r.1 := by
  cases t with
  | set key data ttl lastModified =>
    cases o with
    | turn => simp only [advance, reduceCtorEq] at hr
    | range keys =>
      simp only [advance] at hr
      split_ifs at hr with hkeys
      obtain rfl := (Option.some.inj hr).symm
      exact (accounted_set_iff h).symm
  | get key =>
    cases o <;> simp only [advance, reduceCtorEq] at hr
    refine ⟨fun _ => ?_, fun _ => trivial⟩
    split at hr <;> exact Option.some.inj hr ▸ h
  | looked key item =>
    cases o <;> simp only [advance, reduceCtorEq] at hr
    refine ⟨fun _ => ?_, fun _ => trivial⟩
    split_ifs at hr
    · exact Option.some.inj hr ▸ h
    · exact Option.some.inj hr ▸ accounted_touch h key item.object
  | expiring key item =>
    cases o <;> simp only [advance, reduceCtorEq] at hr
    obtain rfl := (Option.some.inj hr).symm
    exact (accounted_deleteItem_iff h item.size).symm
  | delete key =>
    cases o <;> simp only [advance, reduceCtorEq] at hr
    refine ⟨fun _ => ?_, fun _ => trivial⟩
    cases hitem : s.items.lookup key with
    | none =>
      rw [hitem] at hr
      exact Option.some.inj hr ▸ h
    | some item =>
      rw [hitem] at hr
      refine Option.some.inj hr ▸ (accounted_deleteItem_iff h item.size).mpr ?_
      rw [sizeOf, hitem]
      rfl
  | cleaning now shard =>
    cases o <;> simp only [advance, reduceCtorEq] at hr
    exact ⟨fun _ => Option.some.inj hr ▸ accounted_cleanShard h now shard, fun _ => trivial⟩
  | clearing shard =>
    cases o <;> simp only [advance, reduceCtorEq] at hr
    exact ⟨fun _ => Option.some.inj hr ▸ accounted_clearShard h shard, fun _ => trivial⟩
  | returned result => cases o <;> simp only [advance, reduceCtorEq] at hr

theorem count_advance_le (h : ∀ shard, count c s shard ≤ c.itemsPerShard)
    (hroom : MakesRoom c s t o) (hr : advance c s t o = some r) (shard : ℕ) :
    count c r.1 shard ≤ c.itemsPerShard := by
  cases t with
  | set key data ttl lastModified =>
    cases o with
    | turn => simp only [advance, reduceCtorEq] at hr
    | range keys =>
      simp only [advance] at hr
      split_ifs at hr with hkeys
      obtain rfl := (Option.some.inj hr).symm
      exact count_set_le h hkeys (fun hcrowded => (hroom hcrowded).imp fun e he => he.1) shard
  | get key =>
    cases o <;> simp only [advance, reduceCtorEq] at hr
    split at hr <;> exact Option.some.inj hr ▸ h shard
  | looked key item =>
    cases o <;> simp only [advance, reduceCtorEq] at hr
    split_ifs at hr
    · exact Option.some.inj hr ▸ h shard
    · exact Option.some.inj hr ▸ (count_touch s key item.object shard).le.trans (h shard)
  | expiring key item =>
    cases o <;> simp only [advance, reduceCtorEq] at hr
    exact Option.some.inj hr ▸ (count_deleteItem_le c s key item.size shard).trans (h shard)
  | delete key =>
    cases o <;> simp only [advance, reduceCtorEq] at hr
    split at hr
    · exact Option.some.inj hr ▸ h shard
    · exact Option.some.inj hr ▸ (count_deleteItem_le c s key _ shard).trans (h shard)
  | cleaning now cleaned =>
    cases o <;> simp only [advance, reduceCtorEq] at hr
    exact Option.some.inj hr ▸ (count_foldl_le _ s shard).trans (h shard)
  | clearing cleared =>
    cases o <;> simp only [advance, reduceCtorEq] at hr
    exact Option.some.inj hr ▸ (count_clearShard_le c s cleared shard).trans (h shard)
  | returned result => cases o <;> simp only [advance, reduceCtorEq] at hr

theorem stored_advance (h : Accounted c s) (hcount : ∀ shard, count c s shard ≤ c.itemsPerShard)
    (hkeeps : KeepsAccount c s t o) (hroom : MakesRoom c s t o) (hr : advance c s t o = some r) :
    Stored c r.1 t := by
  have hafter := (accounted_advance_iff h hr).mp hkeeps
  have hcounted := count_advance_le hcount hroom hr
  cases t with
  | set key data ttl lastModified =>
    cases o with
    | turn => simp only [advance, reduceCtorEq] at hr
    | range keys =>
      simp only [advance] at hr
      split_ifs at hr with hkeys
      obtain rfl := (Option.some.inj hr).symm
      refine ⟨?_, fun hsize => ⟨hcounted _, ?_⟩⟩
      · rw [setWithTimestamp_eq]
        exact ⟨_, AList.lookup_insert _, rfl⟩
      · rw [← hafter, currSize_set, Function.update_self]
        by_cases hcrowded : crowded c s key data keys
        · obtain ⟨e, he, hfits⟩ := hroom hcrowded
          rw [he, Option.elim_some]
          exact hfits hsize
        · rw [victim, if_neg hcrowded, Option.elim_none]
          have hfits := not_lt.mp (not_or.mp hcrowded).2
          omega
  | get | looked | expiring | delete | cleaning | clearing | returned => trivial

omit [DecidableEq K] in
theorem onTurn_resume {ok : Levels K D → Point K D → Outcome K → Prop} {i : ℕ}
    (ht : p.tasks[i]? = some t) : OnTurn ok p (.resume i o) ↔ ok p.shared t o := by
  constructor
  · exact fun h => h i o t rfl ht
  · intro h j o' t' ha ht'
    obtain ⟨rfl, rfl⟩ := Action.resume.inj ha
    exact Option.some.inj (ht.symm.trans ht') ▸ h

omit [DecidableEq K] in
theorem onTurn_event {ok : Levels K D → Point K D → Outcome K → Prop} {e : External K D} :
    OnTurn ok p (.event e) :=
  fun i o t ha => absurd ha (by simp)

instance {ok : Levels K D → Point K D → Outcome K → Prop} [∀ s t o, Decidable (ok s t o)]
    (p : CachePool K D) : ∀ a, Decidable (OnTurn ok p a)
  | .resume i o => decidable_of_iff (∀ t ∈ p.tasks[i]?, ok p.shared t o) <| by
    refine ⟨?_, fun h t ht => h i o t rfl ht⟩
    rintro h _ _ t ⟨⟩ ht
    exact h t ht
  | .event _ => .isTrue onTurn_event

omit [DecidableEq K] in
theorem event_items {e : External K D} {r : Effect (Levels K D) (Point K D) Empty}
    (h : event shardCount s e = some r) :
    r.shared.items = s.items ∧ r.shared.currSize = s.currSize := by
  cases e <;> exact Option.some.inj h ▸ ⟨rfl, rfl⟩

theorem accounted_step_iff (h : Accounted c p.shared) (hs : (system c shardCount).step p a = some q) :
    OnTurn (KeepsAccount c) p a ↔ Accounted c q.shared := by
  obtain ⟨i, o, t, r, rfl, ht, hr, rfl⟩ | ⟨e, r, rfl, hr, rfl⟩ := System.step_cases hs
  · obtain ⟨r', hr', rfl⟩ := Option.map_eq_some_iff.mp hr
    rw [onTurn_resume ht]
    exact accounted_advance_iff h hr'
  · obtain ⟨hitems, hsize⟩ := event_items hr
    refine ⟨fun _ shard => ?_, fun _ => onTurn_event⟩
    rw [hsize, total, hitems]
    exact h shard

theorem count_step_le (h : ∀ shard, count c p.shared shard ≤ c.itemsPerShard)
    (hroom : OnTurn (MakesRoom c) p a) (hs : (system c shardCount).step p a = some q) (shard : ℕ) :
    count c q.shared shard ≤ c.itemsPerShard := by
  obtain ⟨i, o, t, r, rfl, ht, hr, rfl⟩ | ⟨e, r, rfl, hr, rfl⟩ := System.step_cases hs
  · obtain ⟨r', hr', rfl⟩ := Option.map_eq_some_iff.mp hr
    exact count_advance_le h ((onTurn_resume ht).mp hroom) hr' shard
  · rw [count, (event_items hr).1]
    exact h shard

theorem setsRight_step (h : Accounted c p.shared)
    (hcount : ∀ shard, count c p.shared shard ≤ c.itemsPerShard)
    (hkeeps : OnTurn (KeepsAccount c) p a) (hroom : OnTurn (MakesRoom c) p a) :
    SetsRight c shardCount p a := by
  rintro q i o t hs rfl ht
  obtain ⟨j, o', t', r, ha, ht', hr, rfl⟩ | ⟨e, r, ha, hr, rfl⟩ := System.step_cases hs
  · obtain ⟨rfl, rfl⟩ := Action.resume.inj ha
    obtain rfl := Option.some.inj (ht.symm.trans ht')
    obtain ⟨r', hr', rfl⟩ := Option.map_eq_some_iff.mp hr
    exact stored_advance h hcount ((onTurn_resume ht).mp hkeeps) ((onTurn_resume ht).mp hroom) hr'
  · cases ha

omit [DecidableEq K] in
theorem accounted_newShardedMemoryCache (c : Config K D) :
    Accounted c (newShardedMemoryCache (K := K) (D := D)).shared := fun _ => rfl

end Runs

/-- The sizes of the shards are right exactly as long as no `SetWithTimestamp` evicts the item of its
own key and no read removes an item of another size than the expired one; and where in such a run
each eviction makes room enough, every `SetWithTimestamp` leaves its item and a shard within its
bounds. -/
theorem accounting (c : Config K D) (shardCount : ℕ)
    (actions : List (Action (Outcome K) (External K D))) :
    ((system c shardCount).Throughout (fun p => Accounted c p.shared) newShardedMemoryCache actions ↔
      (system c shardCount).Along (OnTurn (KeepsAccount c)) newShardedMemoryCache actions) ∧
    ((system c shardCount).Along (OnTurn (KeepsAccount c)) newShardedMemoryCache actions →
      (system c shardCount).Along (OnTurn (MakesRoom c)) newShardedMemoryCache actions →
      (system c shardCount).Along (SetsRight c shardCount) newShardedMemoryCache actions) := by
  constructor
  · exact System.throughout_iff_along (I := fun _ => True) (P := fun p => Accounted c p.shared)
      (fun _ _ _ _ _ => trivial) (fun p a q _ h hs => accounted_step_iff h hs) trivial
      (accounted_newShardedMemoryCache c) actions
  · intro hkeeps hroom
    refine (hkeeps.and hroom).imp (I := fun p => Accounted c p.shared ∧
        ∀ shard, count c p.shared shard ≤ c.itemsPerShard)
      (fun p a q hp ha hs => ⟨(accounted_step_iff hp.1 hs).mp ha.1, count_step_le hp.2 ha.2 hs⟩)
      (fun p a q hp ha _ => setsRight_step hp.1 hp.2 ha.1 ha.2) ?_
    exact ⟨accounted_newShardedMemoryCache c, fun _ => Nat.zero_le _⟩

/-- Strings of letters in one shard of two items and ten letters. -/
def oneShard : Config ℕ String :=
  { shard := fun _ => 0, empty := 0, size := String.length, itemsPerShard := 2, sizePerShard := 10
    cacheTTL := 60 }

/-- The third item that is set evicts the first one, and the second one is removed by a read once it
has expired. -/
def evictAndExpire : List (Action (Outcome ℕ) (External ℕ String)) :=
  [.event (.setWithTimestamp 1 "abc" 60 0), .resume 0 (.range []), .event (.tick 1),
    .event (.setWithTimestamp 2 "abcd" 2 0), .resume 1 (.range [1]), .event (.tick 1),
    .event (.setWithTimestamp 3 "ab" 60 0), .resume 2 (.range [1, 2]), .event (.tick 2),
    .event (.getWithTimestamp 2), .resume 3 .turn, .resume 3 .turn, .resume 3 .turn]

theorem accounting_evictAndExpire :
    (∃ q, (system oneShard 1).run newShardedMemoryCache evictAndExpire = some q ∧
      q.shared.items.keys = [3]) ∧
    (system oneShard 1).Throughout (fun p => Accounted oneShard p.shared) newShardedMemoryCache
      evictAndExpire ∧
    (system oneShard 1).Along (SetsRight oneShard 1) newShardedMemoryCache evictAndExpire := by
  have hkeeps : (system oneShard 1).Along (OnTurn (KeepsAccount oneShard)) newShardedMemoryCache
      evictAndExpire := by decide
  have hroom : (system oneShard 1).Along (OnTurn (MakesRoom oneShard)) newShardedMemoryCache
      evictAndExpire := by decide
  refine ⟨⟨_, rfl, by decide⟩, ?_, ?_⟩
  · exact (accounting oneShard 1 evictAndExpire).1.mpr hkeeps
  · exact (accounting oneShard 1 evictAndExpire).2 hkeeps hroom

/-- The same with one item in a shard. -/
def oneItem : Config ℕ String := { oneShard with itemsPerShard := 1 }

/-- The key is set twice. -/
def setTwice : List (Action (Outcome ℕ) (External ℕ String)) :=
  [.event (.setWithTimestamp 1 "abc" 60 0), .resume 0 (.range []),
    .event (.setWithTimestamp 1 "abd" 60 0), .resume 1 (.range [1])]

/-- The old item goes off the size twice. -/
theorem evicts_itself :
    (∃ q, (system oneItem 1).run newShardedMemoryCache setTwice = some q ∧
      q.shared.currSize 0 = 0 ∧ total oneItem q.shared 0 = 3) ∧
    ¬ (system oneItem 1).Throughout (fun p => Accounted oneItem p.shared) newShardedMemoryCache
      setTwice := by
  have hrun : ∃ q, (system oneItem 1).run newShardedMemoryCache setTwice = some q ∧
      q.shared.currSize 0 = 0 ∧ total oneItem q.shared 0 = 3 := ⟨_, rfl, by decide, by decide⟩
  refine ⟨hrun, fun h => ?_⟩
  obtain ⟨q, hq, hsize, htotal⟩ := hrun
  have haccounted := h.last hq 0
  rw [hsize, htotal] at haccounted
  cases haccounted

end AllInOneBackup.PanSou.MemoryCache
