import AllInOneBackup.Concurrency.Marks
import AllInOneBackup.PanSou.DiskCache.Crash
import AllInOneBackup.PanSou.MemoryCache.Shards

/-! A `Get` that finds an expired entry removes what the key has when it takes the lock again, in
memory and on the disk. That is expired too unless a `Set` of the key has come in between. -/

namespace AllInOneBackup.PanSou.StaleRemoval

open Concurrency

/-! ### Memory -/

section Memory

open TwoLevel (Config Levels)
open MemoryCache

variable {K D : Type} [DecidableEq K]

/-- What the key has in memory is expired. -/
def MemoryExpired (s : Levels K D) (key : K) : Prop :=
  ∀ item, s.items.lookup key = some item → item.expiry < s.now

/-- A `Get` that has found an expired item removes an expired one, or none. -/
def MemoryRemovesExpired (p : CachePool K D) (a : Action (Outcome K) (External K D)) : Prop :=
  ∀ i o key item, a = .resume i o → p.tasks[i]? = some (.expiring key item) →
    MemoryExpired p.shared key

/-- No `Set` stores between the lookup of a `Get` that finds its item expired and its removal: not
until it finds that, and not from there. -/
structure MemoryUndisturbed (p : CachePool K D) (a : Action (Outcome K) (External K D)) : Prop where
  looked : ∀ i o key item, a = .resume i o → p.tasks[i]? = some (.looked key item) →
    item.expiry < p.shared.now → MemoryExpired p.shared key
  set : ∀ i o key data ttl lastModified, a = .resume i o →
    p.tasks[i]? = some (.set key data ttl lastModified) → ∀ item, .expiring key item ∉ p.tasks

instance (s : Levels K D) (key : K) : Decidable (MemoryExpired s key) := Option.decidableForallMem _

/-- The key of the expired item that a `Get` is about to remove. -/
def removing : Point K D → Option K
  | .expiring key _ => some key
  | _ => none

/-- What `MemoryUndisturbed` asks of the turn of a call. -/
def MemoryAllows (p : CachePool K D) : Point K D → Prop
  | .looked key item => item.expiry < p.shared.now → MemoryExpired p.shared key
  | .set key _ _ _ => ∀ t ∈ p.tasks, removing t ≠ some key
  | _ => True

instance (p : CachePool K D) : DecidablePred (MemoryAllows p)
  | .looked _ _ => inferInstanceAs (Decidable (_ → _))
  | .set _ _ _ _ => inferInstanceAs (Decidable (∀ t ∈ p.tasks, _))
  | .get _ | .expiring _ _ | .delete _ | .cleaning _ _ | .clearing _ | .returned _ => .isTrue trivial

omit [DecidableEq K] in
theorem removing_eq_some {t : Point K D} {key : K} :
    removing t = some key ↔ ∃ item, t = .expiring key item := by
  cases t <;> simp [removing]

theorem memoryUndisturbed_resume (p : CachePool K D) (i : ℕ) (o : Outcome K) :
    MemoryUndisturbed p (.resume i o) ↔ ∀ t ∈ p.tasks[i]?, MemoryAllows p t := by
  constructor
  · intro h t ht
    cases t with
    | looked key item => exact h.looked i o key item rfl ht
    | set key data ttl lastModified =>
      intro t' ht' hremoving
      obtain ⟨item, rfl⟩ := removing_eq_some.mp hremoving
      exact h.set i o key data ttl lastModified rfl ht item ht'
    | get | expiring | delete | cleaning | clearing | returned => trivial
  · intro h
    refine ⟨fun j o' key item ha ht => ?_, fun j o' key data ttl lastModified ha ht item hmem => ?_⟩
    · obtain ⟨rfl, -⟩ := Action.resume.inj ha
      exact h _ ht
    · obtain ⟨rfl, -⟩ := Action.resume.inj ha
      exact h _ ht _ hmem rfl

instance (p : CachePool K D) : ∀ a, Decidable (MemoryUndisturbed p a)
  | .resume i o => decidable_of_iff (∀ t ∈ p.tasks[i]?, MemoryAllows p t)
    (memoryUndisturbed_resume p i o).symm
  | .event _ => .isTrue ⟨nofun, nofun⟩

def MemoryInv (p : CachePool K D) : Prop :=
  ∀ key item, .expiring key item ∈ p.tasks → MemoryExpired p.shared key

variable {c : Config K D} {shardCount : ℕ} {s : Levels K D} {t : Point K D} {o : Outcome K}
  {r : Levels K D × Point K D} {p q : CachePool K D} {a : Action (Outcome K) (External K D)}

theorem now_foldl (items : List (K × TwoLevel.Item D)) (s : Levels K D) :
    (items.foldl (fun s e => s.deleteItem c e.1 e.2.size) s).now = s.now := by
  induction items generalizing s with
  | nil => rfl
  | cons e items ih => exact (ih _).trans rfl

theorem lookup_foldl {items : List (K × TwoLevel.Item D)} {s : Levels K D} {k : K}
    {x : TwoLevel.Item D}
    (h : (items.foldl (fun s e => s.deleteItem c e.1 e.2.size) s).items.lookup k = some x) :
    s.items.lookup k = some x := by
  induction items generalizing s with
  | nil => exact h
  | cons e items ih => exact (Levels.lookup_deleteItem (ih h)).2

theorem lookup_foldl_erase {t : DiskCache.Table K (TwoLevel.Item D)} {ks : List K} {k : K}
    {x : TwoLevel.Item D} (h : (ks.foldl (fun t key => t.erase key) t).lookup k = some x) :
    t.lookup k = some x := by
  induction ks generalizing t with
  | nil => exact h
  | cons key ks ih => exact DiskCache.lookup_of_lookup_erase (ih h)

/-- Only a `Set` gives a key an item with another expiry. -/
theorem items_advance (hr : advance c s t o = some r) : r.1.now = s.now ∧
    ∀ key x, r.1.items.lookup key = some x →
      (∃ y, s.items.lookup key = some y ∧ y.expiry = x.expiry) ∨
        ∃ data ttl lastModified, t = .set key data ttl lastModified := by
  have hsame : s.now = s.now ∧ ∀ key x, s.items.lookup key = some x →
      (∃ y, s.items.lookup key = some y ∧ y.expiry = x.expiry) ∨
        ∃ data ttl lastModified, t = .set key data ttl lastModified :=
    ⟨rfl, fun key x hx => .inl ⟨x, hx, rfl⟩⟩
  cases t with
  | set key data ttl lastModified =>
    cases o with
    | turn => simp only [advance, reduceCtorEq] at hr
    | range keys =>
      simp only [advance] at hr
      split_ifs at hr with hkeys
      obtain rfl := (Option.some.inj hr).symm
      obtain ⟨-, hnow, hitems, -⟩ := Levels.setWithTimestamp_spec c s key data ttl lastModified keys
      refine ⟨hnow, fun k x hx => ?_⟩
      rcases hitems k x hx with ⟨rfl, -⟩ | ⟨-, hold⟩
      · exact .inr ⟨data, ttl, lastModified, rfl⟩
      · exact .inl ⟨x, hold, rfl⟩
  | get key =>
    cases o <;> simp only [advance, reduceCtorEq] at hr
    split at hr <;> exact Option.some.inj hr ▸ hsame
  | looked key item =>
    cases o <;> simp only [advance, reduceCtorEq] at hr
    split_ifs at hr
    · exact Option.some.inj hr ▸ hsame
    · obtain rfl := (Option.some.inj hr).symm
      obtain ⟨-, hnow, hitems⟩ := Levels.touch_spec s key item.object
      refine ⟨hnow, fun k x hx => ?_⟩
      obtain ⟨y, hy, -, hexpiry⟩ := hitems k x hx
      exact .inl ⟨y, hy, hexpiry⟩
  | expiring key item =>
    cases o <;> simp only [advance, reduceCtorEq] at hr
    obtain rfl := (Option.some.inj hr).symm
    exact ⟨rfl, fun k x hx => .inl ⟨x, (Levels.lookup_deleteItem hx).2, rfl⟩⟩
  | delete key =>
    cases o <;> simp only [advance, reduceCtorEq] at hr
    split at hr
    · exact Option.some.inj hr ▸ hsame
    · obtain rfl := (Option.some.inj hr).symm
      exact ⟨rfl, fun k x hx => .inl ⟨x, (Levels.lookup_deleteItem hx).2, rfl⟩⟩
  | cleaning now shard =>
    cases o <;> simp only [advance, reduceCtorEq] at hr
    obtain rfl := (Option.some.inj hr).symm
    exact ⟨now_foldl _ s, fun k x hx => .inl ⟨x, lookup_foldl hx, rfl⟩⟩
  | clearing shard =>
    cases o <;> simp only [advance, reduceCtorEq] at hr
    obtain rfl := (Option.some.inj hr).symm
    exact ⟨rfl, fun k x hx => .inl ⟨x, lookup_foldl_erase hx, rfl⟩⟩
  | returned result => cases o <;> simp only [advance, reduceCtorEq] at hr

/-- A turn that leaves a call before its removal is the check of what it has looked up. -/
theorem expiring_advance {key : K} {item : TwoLevel.Item D} (hr : advance c s t o = some r)
    (hpoint : r.2 = .expiring key item) : t = .looked key item ∧ item.expiry < s.now := by
  cases t with
  | looked key' item' =>
    cases o <;> simp only [advance, reduceCtorEq] at hr
    split_ifs at hr with hexpired
    · obtain rfl := (Option.some.inj hr).symm
      obtain ⟨rfl, rfl⟩ := Point.expiring.inj hpoint
      exact ⟨rfl, hexpired⟩
    · obtain rfl := (Option.some.inj hr).symm
      cases hpoint
  | set key' data ttl lastModified =>
    cases o <;> simp only [advance, reduceCtorEq] at hr
    split_ifs at hr
    exact absurd (congrArg Prod.snd (Option.some.inj hr)) (by rw [hpoint]; simp)
  | get key' | delete key' =>
    cases o <;> simp only [advance, reduceCtorEq] at hr
    split at hr <;> exact absurd (congrArg Prod.snd (Option.some.inj hr)) (by rw [hpoint]; simp)
  | expiring | cleaning | clearing =>
    cases o <;> simp only [advance, reduceCtorEq] at hr
    exact absurd (congrArg Prod.snd (Option.some.inj hr)) (by rw [hpoint]; simp)
  | returned result => cases o <;> simp only [advance, reduceCtorEq] at hr

theorem memoryInv_step (h : MemoryInv p) (hok : MemoryUndisturbed p a)
    (hs : (system c shardCount).step p a = some q) : MemoryInv q := by
  obtain ⟨i, o, t, r, rfl, ht, hr, rfl⟩ | ⟨e, r, rfl, hr, rfl⟩ := System.step_cases hs
  · obtain ⟨r', hr', rfl⟩ := Option.map_eq_some_iff.mp hr
    obtain ⟨hnow, hitems⟩ := items_advance hr'
    have hkept : ∀ key, MemoryExpired p.shared key →
        (∀ data ttl lastModified, t ≠ .set key data ttl lastModified) →
        MemoryExpired r'.1 key := by
      intro key hexpired hother x hx
      rw [hnow]
      rcases hitems key x hx with ⟨y, hy, hexpiry⟩ | ⟨data, ttl, lastModified, hset⟩
      · rw [← hexpiry]
        exact hexpired y hy
      · exact absurd hset (hother data ttl lastModified)
    intro key item hmem
    rcases mem_set_append hmem with hnew | hnew | ⟨j, -, hj⟩
    · obtain ⟨rfl, hexpired⟩ := expiring_advance hr' hnew.symm
      exact hkept key (hok.looked i o key item rfl ht hexpired) fun _ _ _ => by simp
    · cases hnew
    · have hold := List.mem_of_getElem? hj
      refine hkept key (h key item hold) ?_
      rintro data ttl lastModified rfl
      exact hok.set i o key data ttl lastModified rfl ht item hold
  · intro key item hmem
    have hold : .expiring key item ∈ p.tasks := by
      rcases List.mem_append.mp hmem with hold | hnew
      · exact hold
      · cases e <;> obtain rfl := (Option.some.inj hr).symm <;> simp at hnew
    have hexpired := h key item hold
    cases e with
    | tick d =>
      obtain rfl := (Option.some.inj hr).symm
      intro x hx
      have hlt := hexpired x hx
      simp only
      omega
    | setWithTimestamp | getWithTimestamp | delete | cleanExpired | clear =>
      obtain rfl := (Option.some.inj hr).symm
      exact hexpired

/-- In memory. -/
theorem memory_removes_expired (c : Config K D) (shardCount : ℕ)
    {actions : List (Action (Outcome K) (External K D))}
    (h : (system c shardCount).Along MemoryUndisturbed newShardedMemoryCache actions) :
    (system c shardCount).Along MemoryRemovesExpired newShardedMemoryCache actions := by
  refine h.imp (I := MemoryInv) (fun p a q hp ha hs => memoryInv_step hp ha hs)
    (fun p a q hp _ _ => ?_) (fun key item hmem => by cases hmem)
  intro i o key item _ ht
  exact hp key item (List.mem_of_getElem? ht)

end Memory

/-! ### The disk -/

section Disk

open DiskCache

variable {K F : Type} [DecidableEq K] [DecidableEq F]

/-- What the key has on the disk is expired. -/
def DiskExpired (s : Cache K F) (key : K) : Prop := ∀ m, s.entry key = some m → s.after m.expiry

/-- The mark of a `Delete` that a `Get` makes because the entry it has found is expired. -/
def expiredGet (_ : Cache K F) (t : Call K) (_ : Bool) (t' : Call K) : Bool :=
  match t.point, t'.point with
  | .checking _ _, .delete _ => true
  | _, _ => false

/-- `DiskCache` with these marks. -/
def diskSystem (getFilename : K → F) :
    System (Cache K F) (Call K × Bool) (Event K) (DiskCache.Outcome K) (DiskCache.External K) :=
  (DiskCache.system getFilename).marked false expiredGet

abbrev DiskPool (K F : Type) := Pool (Cache K F) (Call K × Bool) (Event K)

abbrev DiskAction (K : Type) := Action (DiskCache.Outcome K) (DiskCache.External K)

def newMarkedCache (maxSize : ℤ) : DiskPool K F := { shared := { maxSize := maxSize } }

/-- A `Get` that has found an expired entry removes an expired one, or none. -/
def DiskRemovesExpired (getFilename : K → F) (p : DiskPool K F) (a : DiskAction K) : Prop :=
  ∀ q i o process key, (diskSystem getFilename).step p a = some q → a = .resume i o →
    p.tasks[i]? = some (⟨process, .delete key⟩, true) → DiskExpired p.shared key

/-- No `Set` stores between the lookup of a `Get` that finds its entry expired and its removal: not
until it finds that, and not from there. -/
structure DiskUndisturbed (p : DiskPool K F) (a : DiskAction K) : Prop where
  checking : ∀ i o process marked key object m, a = .resume i o →
    p.tasks[i]? = some (⟨process, .checking key object⟩, marked) →
    p.shared.objects[object]? = some m → p.shared.after m.expiry → DiskExpired p.shared key
  saving : ∀ i process marked key data m, a = .resume i .ok →
    p.tasks[i]? = some (⟨process, .saving key data m⟩, marked) →
    (⟨process, .delete key⟩, true) ∉ p.tasks

instance (s : Cache K F) (key : K) : Decidable (DiskExpired s key) := Option.decidableForallMem _

/-- The process and the key of the entry that a `Get` is about to remove because it has expired. -/
def deleting : Call K × Bool → Option (ℕ × K)
  | (⟨process, .delete key⟩, true) => some (process, key)
  | _ => none

/-- What `DiskUndisturbed` asks of the turn of a call. -/
def DiskAllows (p : DiskPool K F) (t : Call K × Bool) (o : DiskCache.Outcome K) : Prop :=
  match t.1.point, o with
  | .checking key object, _ =>
    ∀ m ∈ p.shared.objects[object]?, p.shared.after m.expiry → DiskExpired p.shared key
  | .saving key _ _, .ok => ∀ u ∈ p.tasks, deleting u ≠ some (t.1.process, key)
  | _, _ => True

instance (p : DiskPool K F) (t : Call K × Bool) (o : DiskCache.Outcome K) :
    Decidable (DiskAllows p t o) := by
  unfold DiskAllows
  split <;> infer_instance

omit [DecidableEq K] in
theorem deleting_eq_some {t : Call K × Bool} {process : ℕ} {key : K} :
    deleting t = some (process, key) ↔ t = (⟨process, .delete key⟩, true) := by
  obtain ⟨⟨process', point⟩, marked⟩ := t
  cases point <;> cases marked <;> simp [deleting]

omit [DecidableEq F] in
theorem diskUndisturbed_resume (p : DiskPool K F) (i : ℕ) (o : DiskCache.Outcome K) :
    DiskUndisturbed p (.resume i o) ↔ ∀ t ∈ p.tasks[i]?, DiskAllows p t o := by
  constructor
  · rintro h ⟨⟨process, point⟩, marked⟩ ht
    cases point with
    | checking key object =>
      intro m hm hafter
      exact h.checking i o process marked key object m rfl ht hm hafter
    | saving key data m =>
      cases o with
      | ok =>
        intro u hu hdeleting
        rw [deleting_eq_some.mp hdeleting] at hu
        exact h.saving i process marked key data m rfl ht hu
      | turn | range | failed => trivial
    | _ => trivial
  · intro h
    refine ⟨fun j o' process marked key object m ha ht => ?_,
      fun j process marked key data m ha ht hmem => ?_⟩
    · obtain ⟨rfl, -⟩ := Action.resume.inj ha
      exact h _ ht m
    · obtain ⟨rfl, rfl⟩ := Action.resume.inj ha
      exact h _ ht _ hmem rfl

instance (p : DiskPool K F) : ∀ a, Decidable (DiskUndisturbed p a)
  | .resume i o => decidable_of_iff (∀ t ∈ p.tasks[i]?, DiskAllows p t o)
    (diskUndisturbed_resume p i o).symm
  | .event _ => .isTrue ⟨nofun, nofun⟩

structure DiskInv (getFilename : K → F) (p : DiskPool K F) : Prop where
  inv : PoolInv getFilename p.unmark
  expired : ∀ key, (⟨p.shared.process, .delete key⟩, true) ∈ p.tasks → DiskExpired p.shared key

variable {getFilename : K → F} {s s' : Cache K F} {point point' : DiskCache.Point K}
  {o : DiskCache.Outcome K} {seen : List (Event K)} {p q : DiskPool K F} {a : DiskAction K}

omit [DecidableEq F] in
theorem entry_of_eq (hmetadata : s'.metadata = s.metadata) (hobjects : s'.objects = s.objects)
    (key : K) : s'.entry key = s.entry key := by
  rw [Cache.entry, Cache.entry, hmetadata, hobjects]

omit [DecidableEq F] in
theorem entry_drop (size : ℕ) {key key' : K} {m : Metadata K}
    (h : (s.drop key size).entry key' = some m) : s.entry key' = some m := by
  obtain ⟨r, hr, hm⟩ := Option.bind_eq_some_iff.mp h
  exact Option.bind_eq_some_iff.mpr ⟨r, lookup_of_lookup_erase hr, hm⟩

omit [DecidableEq F] in
theorem entry_touch {key : K} {object : ℕ} {m : Metadata K}
    (h : (s.touch object).entry key = some m) :
    ∃ m', s.entry key = some m' ∧ m'.expiry = m.expiry := by
  obtain ⟨r, hr, hm⟩ := Option.bind_eq_some_iff.mp h
  rw [Cache.touch, List.getElem?_modify] at hm
  obtain ⟨m', hm', rfl⟩ := Option.map_eq_some_iff.mp hm
  refine ⟨m', Option.bind_eq_some_iff.mpr ⟨r, hr, hm'⟩, ?_⟩
  split_ifs <;> rfl

/-- Only the end of a `Set` gives a key an entry with another expiry. -/
theorem entry_advance (htable : s.Tabled) (h : advance getFilename s point o = some (s', point', seen))
    {key : K} {m : Metadata K} (hm : s'.entry key = some m) :
    (∃ m', s.entry key = some m' ∧ m'.expiry = m.expiry) ∨
      ∃ data, point = .saving key data m ∧ o = .ok := by
  have hsame : s'.metadata = s.metadata → s'.objects = s.objects →
      (∃ m', s.entry key = some m' ∧ m'.expiry = m.expiry) ∨
        ∃ data, point = .saving key data m ∧ o = .ok := fun hmetadata hobjects =>
    .inl ⟨m, (entry_of_eq hmetadata hobjects key).symm.trans hm, rfl⟩
  cases point with
  | set key' data ttl =>
    cases o with
    | range entries =>
      simp only [advance] at h
      split_ifs at h
      obtain ⟨rfl, -, -⟩ : _ ∧ _ ∧ _ := by simpa using h
      exact hsame rfl rfl
    | turn | ok | failed => simp only [advance, reduceCtorEq] at h
  | sweeping sweep items =>
    cases o with
    | turn =>
      simp only [advance] at h
      split_ifs at h
      obtain ⟨rfl, -, -⟩ : _ ∧ _ ∧ _ := by simpa using h
      cases sweep <;> exact hsame rfl rfl
    | ok | failed =>
      cases items <;> simp only [advance, reduceCtorEq] at h
      split_ifs at h
      obtain ⟨rfl, -, -⟩ : _ ∧ _ ∧ _ := by simpa using h
      exact hsame rfl rfl
    | range => cases items <;> simp only [advance, reduceCtorEq] at h
  | sweepingMeta sweep item items =>
    cases o <;> simp only [advance, reduceCtorEq] at h
    · obtain ⟨rfl, -, -⟩ : _ ∧ _ ∧ _ := by simpa using h
      exact .inl ⟨m, entry_drop item.size hm, rfl⟩
    · obtain ⟨rfl, -, -⟩ : _ ∧ _ ∧ _ := by simpa using h
      exact .inl ⟨m, entry_drop item.size hm, rfl⟩
  | writing key' data ttl =>
    cases o <;> simp only [advance, reduceCtorEq] at h <;>
      obtain ⟨rfl, -, -⟩ : _ ∧ _ ∧ _ := by simpa using h
    · exact hsame rfl rfl
    · exact hsame rfl rfl
  | stamping key' data ttl =>
    cases o <;> simp only [advance, reduceCtorEq] at h
    obtain ⟨rfl, -, -⟩ : _ ∧ _ ∧ _ := by simpa using h
    exact hsame rfl rfl
  | saving key' data m' =>
    cases o <;> simp only [advance, reduceCtorEq] at h
    · obtain ⟨rfl, -, -⟩ : _ ∧ _ ∧ _ := by simpa using h
      have hadd : (s.add key' m').entry key = some m := hm
      rw [Cache.entry_add htable] at hadd
      split_ifs at hadd with heq
      · obtain rfl := Option.some.inj hadd
        exact .inr ⟨data, by rw [heq], rfl⟩
      · exact .inl ⟨m, hadd, rfl⟩
    · obtain ⟨rfl, -, -⟩ : _ ∧ _ ∧ _ := by simpa using h
      exact hsame rfl rfl
  | undoing key' =>
    cases o <;> simp only [advance, reduceCtorEq] at h <;>
      obtain ⟨rfl, -, -⟩ : _ ∧ _ ∧ _ := by simpa using h
    · exact hsame rfl rfl
    · exact hsame rfl rfl
  | get key' =>
    cases o <;> simp only [advance, reduceCtorEq] at h
    split_ifs at h
    split at h <;> obtain ⟨rfl, -, -⟩ : _ ∧ _ ∧ _ := by simpa using h
    · exact hsame rfl rfl
    · exact hsame rfl rfl
  | checking key' object =>
    cases o <;> simp only [advance, reduceCtorEq] at h
    obtain ⟨x, -, hx⟩ := Option.map_eq_some_iff.mp h
    obtain ⟨rfl, -, -⟩ : _ ∧ _ ∧ _ := by simpa using hx
    exact hsame rfl rfl
  | reading key' object =>
    cases o <;> simp only [advance, reduceCtorEq] at h
    · split at h <;> obtain ⟨rfl, -, -⟩ : _ ∧ _ ∧ _ := by simpa using h
      · exact hsame rfl rfl
      · exact hsame rfl rfl
    · obtain ⟨rfl, -, -⟩ : _ ∧ _ ∧ _ := by simpa using h
      exact hsame rfl rfl
  | touching key' object data =>
    simp only [advance] at h
    split_ifs at h
    obtain ⟨x, -, hx⟩ := Option.bind_eq_some_iff.mp h
    cases o <;> simp only [reduceCtorEq] at hx <;>
      obtain ⟨rfl, -, -⟩ : _ ∧ _ ∧ _ := by simpa using hx
    · exact .inl (entry_touch hm)
    · exact .inl (entry_touch hm)
  | delete key' =>
    simp only [advance] at h
    split_ifs at h
    split at h
    · obtain ⟨rfl, -, -⟩ : _ ∧ _ ∧ _ := by simpa using h
      exact hsame rfl rfl
    · obtain ⟨rfl, -, -⟩ : _ ∧ _ ∧ _ := by simpa using h
      exact hsame rfl rfl
    · obtain ⟨rfl, -, -⟩ : _ ∧ _ ∧ _ := by simpa using h
      exact hsame rfl rfl
    · cases h
  | deleting key' object =>
    simp only [advance] at h
    obtain ⟨x, -, hx⟩ := Option.bind_eq_some_iff.mp h
    cases o <;> simp only [reduceCtorEq] at hx <;>
      obtain ⟨rfl, -, -⟩ : _ ∧ _ ∧ _ := by simpa using hx
    · exact .inl ⟨m, entry_drop x.size hm, rfl⟩
    · exact .inl ⟨m, entry_drop x.size hm, rfl⟩
  | clean =>
    cases o <;> simp only [advance, reduceCtorEq] at h
    split_ifs at h
    obtain ⟨rfl, -, -⟩ : _ ∧ _ ∧ _ := by simpa using h
    exact hsame rfl rfl
  | returned => cases o <;> simp only [advance, reduceCtorEq] at h

/-- A call that gets the mark is at the check of an entry that has expired. -/
theorem expiredGet_resume {t : Call K} {b : Bool} {r : CacheTurn K F} {key : K}
    (hr : resume getFilename s t o = some r) (hmark : expiredGet s t b r.task = true)
    (hpoint : r.task.point = .delete key) :
    ∃ object m, t.point = .checking key object ∧ s.objects[object]? = some m ∧
      s.after m.expiry := by
  obtain ⟨-, -, -, hadvance⟩ := resume_cases hr
  rw [expiredGet, hpoint] at hmark
  cases ht : t.point with
  | checking key' object =>
    rw [ht] at hadvance
    cases o <;> simp only [advance, reduceCtorEq] at hadvance
    obtain ⟨m, hm, hnext⟩ := Option.map_eq_some_iff.mp hadvance
    obtain ⟨-, hafter, -⟩ : _ ∧ _ ∧ _ := by simpa using hnext
    rw [hpoint] at hafter
    split_ifs at hafter with hexpired
    obtain rfl := Point.delete.inj hafter
    exact ⟨object, m, rfl, hm, hexpired⟩
  | _ =>
    rw [ht] at hmark
    cases hmark

theorem diskInv_step (h : DiskInv getFilename p) (hok : DiskUndisturbed p a)
    (hs : (diskSystem getFilename).step p a = some q) : DiskInv getFilename q := by
  refine ⟨poolInv_step h.inv (step_unmark hs), ?_⟩
  obtain ⟨i, o, t, r, rfl, ht, hr, rfl⟩ | ⟨e, r, rfl, hr, rfl⟩ := System.step_cases hs
  · obtain ⟨r', hr', rfl⟩ := Option.map_eq_some_iff.mp hr
    obtain ⟨hprocess, htask, hspawned, hadvance⟩ := resume_cases hr'
    have htable : p.shared.Tabled := h.inv.table
    have hchange : r'.shared.process = p.shared.process ∧ r'.shared.now = p.shared.now := by
      have ht' : p.unmark.tasks[i]? = some t.1 := by
        rw [Pool.unmark, List.getElem?_map, ht]
        rfl
      obtain ⟨hi, heq⟩ := List.getElem?_eq_some_iff.mp ht'
      have hperm := (List.getElem_cons_eraseIdx_perm hi).symm
      rw [heq] at hperm
      have hturn := (inv_resume (Inv.perm h.inv hperm.symm) hr').2
      exact ⟨hturn.process, hturn.now⟩
    have hkept : ∀ key, DiskExpired p.shared key →
        (∀ data m, t.1.point = .saving key data m → o ≠ .ok) → DiskExpired r'.shared key := by
      intro key hexpired hother m hm
      rw [Cache.after, hchange.2]
      rcases entry_advance htable hadvance hm with ⟨m', hm', hexpiry⟩ | ⟨data, hsaving, hok'⟩
      · rw [← hexpiry]
        exact hexpired m' hm'
      · exact absurd hok' (hother data m hsaving)
    intro key hmem
    rcases mem_set_append hmem with hnew | hnew | ⟨j, -, hj⟩
    · obtain ⟨hcall, hmark⟩ := Prod.mk.inj hnew
      have hpoint : r'.task.point = .delete key := by rw [← hcall]
      obtain ⟨object, m, hchecking, hm, hafter⟩ := expiredGet_resume hr' hmark.symm hpoint
      refine hkept key (hok.checking i o t.1.process t.2 key object m rfl ?_ hm hafter) ?_
      · rw [ht, ← hchecking]
      · intro data m' hsaving
        rw [hchecking] at hsaving
        cases hsaving
    · rw [hspawned] at hnew
      cases hnew
    · have hold := List.mem_of_getElem? hj
      rw [hchange.1] at hold
      refine hkept key (h.expired key hold) ?_
      rintro data m hsaving rfl
      refine hok.saving i t.1.process t.2 key data m rfl ?_ ?_
      · rw [ht, ← hsaving]
      · rw [hprocess]
        exact hold
  · obtain ⟨r', hr', rfl⟩ := Option.map_eq_some_iff.mp hr
    intro key hmem
    have hold : (⟨r'.shared.process, .delete key⟩, true) ∈ p.tasks := by
      rcases List.mem_append.mp hmem with hold | hnew
      · exact hold
      · obtain ⟨t, -, ht⟩ := List.mem_map.mp hnew
        exact absurd (congrArg Prod.snd ht) (by simp)
    cases e with
    | tick d =>
      obtain rfl := (Option.some.inj hr').symm
      intro m hm
      have hlt : m.expiry < p.shared.now := h.expired key hold m hm
      simp only [Cache.after]
      omega
    | restart =>
      obtain rfl := (Option.some.inj hr').symm
      have hle := h.inv.processes _ (List.mem_map_of_mem hold)
      simp only [Cache.restart_process] at hle
      exact absurd hle (by simp [Pool.unmark])
    | set | get | delete | clean =>
      obtain rfl := (Option.some.inj hr').symm
      exact h.expired key hold

/-- On the disk. -/
theorem disk_removes_expired (getFilename : K → F) (maxSize : ℤ) {actions : List (DiskAction K)}
    (h : (diskSystem getFilename).Along DiskUndisturbed (newMarkedCache maxSize) actions) :
    (diskSystem getFilename).Along (DiskRemovesExpired getFilename) (newMarkedCache maxSize)
      actions := by
  refine h.imp (I := DiskInv getFilename) (fun p a q hp ha hs => diskInv_step hp ha hs)
    (fun p a q hp _ _ => ?_) ⟨poolInv_newDiskCache getFilename maxSize, fun key hmem => by cases hmem⟩
  rintro q i o process key hs rfl ht
  obtain ⟨j, o', t, r, hj, ht', hr, rfl⟩ | ⟨e, r, hj, hr, rfl⟩ := System.step_cases hs
  · obtain ⟨rfl, rfl⟩ := Action.resume.inj hj
    obtain rfl := Option.some.inj (ht.symm.trans ht')
    obtain ⟨r', hr', rfl⟩ := Option.map_eq_some_iff.mp hr
    have hprocess : process = p.shared.process := (resume_cases hr').1
    rw [hprocess] at ht
    exact hp.expired key (List.mem_of_getElem? ht)
  · cases hj

end Disk

/-- Where no `Set` of the key stores between the lookup and the removal of a `Get` that finds its
entry expired, such a removal takes an expired entry, or none: in memory and on the disk. -/
theorem expired_get_removes_expired {K D F : Type} [DecidableEq K] [DecidableEq F]
    (c : TwoLevel.Config K D) (shardCount : ℕ) (getFilename : K → F) (maxSize : ℤ)
    (memory : List (Action (MemoryCache.Outcome K) (MemoryCache.External K D)))
    (disk : List (DiskAction K))
    (hmemory : (MemoryCache.system c shardCount).Along MemoryUndisturbed
      MemoryCache.newShardedMemoryCache memory)
    (hdisk : (diskSystem getFilename).Along DiskUndisturbed (newMarkedCache maxSize) disk) :
    (MemoryCache.system c shardCount).Along MemoryRemovesExpired
        MemoryCache.newShardedMemoryCache memory ∧
      (diskSystem getFilename).Along (DiskRemovesExpired getFilename) (newMarkedCache maxSize) disk :=
  ⟨memory_removes_expired c shardCount hmemory, disk_removes_expired getFilename maxSize hdisk⟩

/-- Numbers, each of the size that it says, in one shard. -/
def oneShard : TwoLevel.Config ℕ ℕ :=
  { shard := fun _ => 0, empty := 0, size := id, itemsPerShard := 4, sizePerShard := 100
    cacheTTL := 60 }

/-- An item is set in memory, expires, and is removed by a `Get`; then it is set again. -/
def expiredGetRun : List (Action (MemoryCache.Outcome ℕ) (MemoryCache.External ℕ ℕ)) :=
  [.event (.setWithTimestamp 1 3 1 0), .resume 0 (.range []), .event (.tick 5),
    .event (.getWithTimestamp 1), .resume 1 .turn, .resume 1 .turn, .resume 1 .turn,
    .event (.setWithTimestamp 1 4 60 0), .resume 2 (.range [])]

/-- The same on the disk, up to the removal. -/
def expiredDiskGetRun : List (DiskAction ℕ) :=
  [.event (.set 7 [1] 1), .resume 0 (.range []), .resume 0 .ok, .resume 0 .turn, .resume 0 .ok,
    .event (.tick 5), .event (.get 7), .resume 1 .turn, .resume 1 .turn, .resume 1 .ok,
    .resume 1 .ok]

theorem expired_get_removes_expired_one :
    ((∃ q, (MemoryCache.system oneShard 1).run MemoryCache.newShardedMemoryCache
        (expiredGetRun.take 7) = some q ∧ q.shared.items.lookup 1 = none) ∧
      ∃ q, (diskSystem (id : ℕ → ℕ)).run (newMarkedCache 1000) expiredDiskGetRun = some q ∧
        q.shared.entry 7 = none) ∧
    (MemoryCache.system oneShard 1).Along MemoryRemovesExpired MemoryCache.newShardedMemoryCache
        expiredGetRun ∧
      (diskSystem (id : ℕ → ℕ)).Along (DiskRemovesExpired id) (newMarkedCache 1000)
        expiredDiskGetRun := by
  refine ⟨⟨⟨_, rfl, by decide⟩, _, rfl, by decide⟩, ?_⟩
  exact expired_get_removes_expired oneShard 1 id 1000 expiredGetRun expiredDiskGetRun
    (by decide) (by decide)

/-- In memory a `Set` of the key comes between the check and the removal of an expired `Get`. -/
def staleGet : List (Action (MemoryCache.Outcome ℕ) (MemoryCache.External ℕ ℕ)) :=
  [.event (.setWithTimestamp 1 3 1 0), .resume 0 (.range []), .event (.tick 5),
    .event (.getWithTimestamp 1), .resume 1 .turn, .resume 1 .turn,
    .event (.setWithTimestamp 1 4 60 0), .resume 2 (.range [1]), .resume 1 .turn]

/-- The same on the disk. -/
def staleDiskGet : List (DiskAction ℕ) :=
  [.event (.set 7 [1] 1), .resume 0 (.range []), .resume 0 .ok, .resume 0 .turn, .resume 0 .ok,
    .event (.tick 5), .event (.get 7), .resume 1 .turn, .resume 1 .turn,
    .event (.set 7 [2] 60), .resume 2 (.range [⟨7, 0⟩]), .resume 2 .ok, .resume 2 .turn,
    .resume 2 .ok, .resume 1 .ok, .resume 1 .ok]

/-- The entry that the `Set` has just stored is removed. -/
theorem fresh_entry_removed :
    (∃ p q, (MemoryCache.system oneShard 1).run MemoryCache.newShardedMemoryCache
        (staleGet.take 8) = some p ∧ (p.shared.items.lookup 1).any (fun item => item.expiry = 65) ∧
      (MemoryCache.system oneShard 1).run p (staleGet.drop 8) = some q ∧ q.shared.now = 5 ∧
      q.shared.items.lookup 1 = none) ∧
    ∃ p q, (diskSystem (id : ℕ → ℕ)).run (newMarkedCache 1000) (staleDiskGet.take 14) = some p ∧
      (p.shared.entry 7).any (fun m => m.expiry = 65) ∧
      (diskSystem (id : ℕ → ℕ)).run p (staleDiskGet.drop 14) = some q ∧ q.shared.now = 5 ∧
      q.shared.entry 7 = none := by
  exact ⟨⟨_, _, rfl, by decide, rfl, rfl, by decide⟩, _, _, rfl, by decide, rfl, rfl, by decide⟩

end AllInOneBackup.PanSou.StaleRemoval
