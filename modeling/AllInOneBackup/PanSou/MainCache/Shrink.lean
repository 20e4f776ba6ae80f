import AllInOneBackup.PanSou.MainCache.Cache

/-! Entries that never shrink. The lock keeps what a call has read of its key in force until it
stores; a flush keeps it when it puts no less into memory than is there, and what waits for a flush
has never more. -/

namespace AllInOneBackup.PanSou.MainCache

open Concurrency
open DiskCache (Table)
open WriteManager (CacheOperation Stores)

variable {K P ι : Type} [DecidableEq K]

/-! ### What a turn changes -/

/-- The operation is of a key in memory, and `Get` returns all its results. -/
def Cache.Fits (s : Cache K P ι) (op : CacheOperation K (List SearchResult) P) : Prop :=
  op.key ∈ s.memory ∧ ∀ resultKey, HasKey op.data resultKey → s.Visible op.key resultKey

/-- `Get` returns the results of the call. -/
def Cache.HasResults (s : Cache K P ι) (call : Call K P) : Prop :=
  ∀ resultKey, HasKey call.results resultKey → s.Visible call.key resultKey

/-- A turn of a task that has the locks `held`: memory loses no key and no entry loses a result, and
an entry changes without its lock only where memory has it, and gets no result. -/
structure Turned (stripe : K → ι) (s s' : Cache K P ι) (held : ι → Prop) : Prop where
  memory : ∀ key ∈ s.memory, key ∈ s'.memory
  grows : ∀ key resultKey, s.Visible key resultKey → s'.Visible key resultKey
  absent : ∀ key, ¬held (stripe key) → key ∉ s.memory →
    key ∉ s'.memory ∧ s'.disk.lookup key = s.disk.lookup key
  same : ∀ key, ¬held (stripe key) → ∀ resultKey,
    s'.Visible key resultKey → s.Visible key resultKey

section View

variable {s s' : Cache K P ι} {key : K} {value : List SearchResult} {resultKey : String}

theorem view_eq_some (h : s.memory.lookup key = some value) : s.view key = some value :=
  Option.or_eq_some_iff.mpr (Or.inl h)

theorem view_of_notMem (h : key ∉ s.memory) : s.view key = s.disk.lookup key :=
  (congrArg (Option.or · _) (AList.lookup_eq_none.mpr h)).trans Option.none_or

theorem visible_of_view (h : s.view key = some value) :
    s.Visible key resultKey ↔ HasKey value resultKey := by
  rw [Cache.Visible, h, Option.getD_some]

theorem visible_congr (h : s'.view key = s.view key) :
    s'.Visible key resultKey ↔ s.Visible key resultKey := by
  rw [Cache.Visible, Cache.Visible, h]

end View

section Turned

variable {stripe : K → ι} {s s' : Cache K P ι} {held : ι → Prop} {key : K}
  {value : List SearchResult}

theorem turned_rfl (hm : s'.memory = s.memory) (hd : s'.disk = s.disk) :
    Turned stripe s s' held := by
  have hview : ∀ key, s'.view key = s.view key := by
    intro key
    rw [Cache.view, Cache.view, hm, hd]
  exact ⟨fun key hk => hm ▸ hk, fun key rk hr => (visible_congr (hview key)).mpr hr,
    fun key _ hk => ⟨hm ▸ hk, hd ▸ rfl⟩, fun key _ rk hr => (visible_congr (hview key)).mp hr⟩

/-- A store into memory that has all of the entry, under the lock or without a new result. -/
theorem turned_memory (hm : s'.memory = s.memory.insert key value) (hd : s'.disk = s.disk)
    (hall : ∀ resultKey, s.Visible key resultKey → HasKey value resultKey)
    (hown : held (stripe key) ∨
      key ∈ s.memory ∧ ∀ resultKey, HasKey value resultKey → s.Visible key resultKey) :
    Turned stripe s s' held := by
  have hself : s'.view key = some value := view_eq_some (by rw [hm, AList.lookup_insert])
  have hother : ∀ k, k ≠ key → s'.view k = s.view k := by
    intro k hk
    rw [Cache.view, hm, hd, AList.lookup_insert_ne hk, Cache.view]
  refine ⟨fun k hk => ?_, fun k rk hr => ?_, fun k hk habs => ?_, fun k hk rk hr => ?_⟩
  · rw [hm]
    exact AList.mem_insert _ |>.mpr (Or.inr hk)
  · rcases eq_or_ne k key with rfl | hne
    · exact (visible_of_view hself).mpr (hall rk hr)
    · exact (visible_congr (hother k hne)).mpr hr
  · rcases eq_or_ne k key with rfl | hne
    · exact absurd (hown.resolve_left hk).1 habs
    · rw [hm, hd, AList.mem_insert]
      exact ⟨not_or.mpr ⟨hne, habs⟩, rfl⟩
  · rcases eq_or_ne k key with rfl | hne
    · exact (hown.resolve_left hk).2 rk ((visible_of_view hself).mp hr)
    · exact (visible_congr (hother k hne)).mp hr

/-- A store on the disk of a key in memory. -/
theorem turned_disk (hm : s'.memory = s.memory) (hd : s'.disk = s.disk.insert key value)
    (hmem : key ∈ s.memory) : Turned stripe s s' held := by
  have hview : ∀ k, s'.view k = s.view k := by
    intro k
    rw [Cache.view, Cache.view, hm, hd]
    rcases eq_or_ne k key with rfl | hne
    · obtain ⟨v, hv⟩ := Option.isSome_iff_exists.mp (AList.lookup_isSome.mpr hmem)
      rw [hv, Option.some_or, Option.some_or]
    · rw [AList.lookup_insert_ne hne]
  refine ⟨fun k hk => hm ▸ hk, fun k rk hr => (visible_congr (hview k)).mpr hr,
    fun k _ habs => ⟨hm ▸ habs, ?_⟩, fun k _ rk hr => (visible_congr (hview k)).mp hr⟩
  have hne : k ≠ key := by
    rintro rfl
    exact habs hmem
  rw [hd, AList.lookup_insert_ne hne]

theorem Turned.fits (h : Turned stripe s s' held) {op : CacheOperation K (List SearchResult) P}
    (hop : s.Fits op) : s'.Fits op :=
  ⟨h.memory _ hop.1, fun rk hr => h.grows _ rk (hop.2 rk hr)⟩

theorem Turned.hasResults (h : Turned stripe s s' held) {call : Call K P}
    (hc : s.HasResults call) : s'.HasResults call :=
  fun rk hr => h.grows _ rk (hc rk hr)

end Turned

/-! ### What a task has in hand -/

/-- The task has the lock. -/
def Point.Locks (stripe : K → ι) (i : ι) : Point K P → Prop
  | .get call | .diskGet call | .backfilling call _ | .merging call _ | .handling call _
  | .diskSet call _ | .unlocking call => stripe call.key = i
  | _ => False

/-- What a task has in hand agrees with the cache. -/
def Point.Fits (s : Cache K P ι) : Point K P → Prop
  | .start _ | .get _ | .flushed => True
  | .diskGet call => call.key ∉ s.memory
  | .backfilling call existing =>
    call.key ∉ s.memory ∧ s.disk.lookup call.key = some existing
  | .merging call existing => ∀ resultKey, s.Visible call.key resultKey →
    HasKey (existing.getD []) resultKey
  | .handling call op => s.Fits op ∧ s.HasResults call
  | .diskSet call _ => call.key ∈ s.memory ∧ s.HasResults call
  | .unlocking call | .returned call => s.HasResults call
  | .flushing ops _ => ∀ op ∈ ops, s.Fits op
  | .flushingDisk op ops _ => s.Fits op ∧ ∀ op ∈ ops, s.Fits op

section Tasks

variable {stripe : K → ι} {s s' : Cache K P ι} {t u : Point K P} {o : Outcome}
  {r : CacheTurn K P ι}

/-- A turn of another task leaves what a task has in hand. -/
theorem Turned.point {held : ι → Prop} (h : Turned stripe s s' held) (hu : u.Fits s)
    (hlocks : ∀ i, u.Locks stripe i → ¬held i) : u.Fits s' := by
  cases u with
  | start call => trivial
  | get call => trivial
  | flushed => trivial
  | diskGet call => exact (h.absent _ (hlocks _ rfl) hu).1
  | backfilling call existing =>
    obtain ⟨hmem, hdisk⟩ := h.absent _ (hlocks _ rfl) hu.1
    exact ⟨hmem, hdisk.trans hu.2⟩
  | merging call existing => exact fun rk hr => hu rk (h.same _ (hlocks _ rfl) rk hr)
  | handling call op => exact ⟨h.fits hu.1, h.hasResults hu.2⟩
  | diskSet call merged => exact ⟨h.memory _ hu.1, h.hasResults hu.2⟩
  | unlocking call => exact h.hasResults hu
  | returned call => exact h.hasResults hu
  | flushing ops batch => exact fun op hop => h.fits (hu op hop)
  | flushingDisk op ops batch => exact ⟨h.fits hu.1, fun op hop => h.fits (hu.2 op hop)⟩

variable [DecidableEq P] [DecidableEq ι]

/-- What a turn of a task keeps: what the others see, what the task then has in hand, and what
waits. -/
structure Fitting (stripe : K → ι) (s : Cache K P ι) (t : Point K P) (r : CacheTurn K P ι) :
    Prop where
  turned : Turned stripe s r.shared (t.Locks stripe ·)
  task : r.task.Fits r.shared
  stores : ∀ op, r.shared.stores.Holds op → r.shared.Fits op

section Advance

variable {call : Call K P} {existing merged : List SearchResult}
  {op : CacheOperation K (List SearchResult) P}
  {operations : List (CacheOperation K (List SearchResult) P)} {batch : Bool}
  (hstores : ∀ op, s.stores.Holds op → s.Fits op)

include hstores

theorem fitting_start (h : advance stripe s (.start call) o = some r) :
    Fitting stripe s (.start call) r := by
  cases o with
  | turn =>
    obtain ⟨-, h⟩ := Option.ite_none_left_eq_some.mp h
    cases h
    exact ⟨turned_rfl rfl rfl, trivial, hstores⟩
  | _ => cases h

theorem fitting_get (h : advance stripe s (.get call) o = some r) :
    Fitting stripe s (.get call) r := by
  cases o with
  | turn =>
    simp only [advance] at h
    split at h
    case h_1 existing hl =>
      cases h
      exact ⟨turned_rfl rfl rfl, fun rk hr => (visible_of_view (view_eq_some hl)).mp hr, hstores⟩
    case h_2 hl =>
      cases h
      exact ⟨turned_rfl rfl rfl, AList.lookup_eq_none.mp hl, hstores⟩
  | _ => cases h

/-- Under the lock the key is not in memory, so a reader sees what the disk has. -/
theorem fitting_diskGet (ht : (Point.diskGet call).Fits s)
    (h : advance stripe s (.diskGet call) o = some r) : Fitting stripe s (.diskGet call) r := by
  have hview : s.view call.key = s.disk.lookup call.key := view_of_notMem ht
  cases o with
  | turn =>
    simp only [advance] at h
    split at h
    case h_1 existing hl =>
      cases h
      exact ⟨turned_rfl rfl rfl, ⟨ht, hl⟩, hstores⟩
    case h_2 hl =>
      cases h
      refine ⟨turned_rfl rfl rfl, fun rk hr => ?_, hstores⟩
      rwa [Cache.Visible, hview, hl] at hr
  | _ => cases h

theorem fitting_backfilling (ht : (Point.backfilling call existing).Fits s)
    (h : advance stripe s (.backfilling call existing) o = some r) :
    Fitting stripe s (.backfilling call existing) r := by
  have hview : s.view call.key = some existing := (view_of_notMem ht.1).trans ht.2
  cases o with
  | turn =>
    cases h
    have hturned : Turned stripe s { s with memory := s.memory.insert call.key existing }
        ((Point.backfilling call existing).Locks stripe ·) :=
      turned_memory rfl rfl (fun rk hr => (visible_of_view hview).mp hr) (Or.inl rfl)
    exact ⟨hturned, fun rk hr => (visible_of_view (view_eq_some (AList.lookup_insert _))).mp hr,
      fun op hop => hturned.fits (hstores op hop)⟩
  | _ => cases h

/-- What is merged has the results of both sides. -/
theorem fitting_merging {existing : Option (List SearchResult)}
    (ht : (Point.merging call existing).Fits s)
    (h : advance stripe s (.merging call existing) o = some r) :
    Fitting stripe s (.merging call existing) r := by
  cases o with
  | merged results timestamp =>
    obtain ⟨hmerge, h⟩ := Option.ite_none_right_eq_some.mp h
    cases h
    have hkeys := Call.hasKey_of_stores hmerge
    have hturned : Turned stripe s { s with memory := s.memory.insert call.key results }
        ((Point.merging call existing).Locks stripe ·) :=
      turned_memory rfl rfl (fun rk hr => (hkeys rk).mpr (Or.inl (ht rk hr))) (Or.inl rfl)
    have hmem : call.key ∈ s.memory.insert call.key results :=
      (AList.mem_insert _).mpr (Or.inl rfl)
    have hvisible : ∀ rk, HasKey results rk →
        ({ s with memory := s.memory.insert call.key results } : Cache K P ι).Visible
          call.key rk :=
      fun rk hr => (visible_of_view (view_eq_some (AList.lookup_insert _))).mpr hr
    have hresults : ({ s with memory := s.memory.insert call.key results } :
        Cache K P ι).HasResults call :=
      fun rk hr => hvisible rk ((hkeys rk).mpr (Or.inr hr))
    refine ⟨hturned, ?_, fun op hop => hturned.fits (hstores op hop)⟩
    cases call with
    | mergeIntoMainCache key newResults ttl isFinal pluginName =>
      exact ⟨⟨hmem, hvisible⟩, hresults⟩
    | writeFinalMainCache key results' ttl => exact ⟨hmem, hresults⟩
  | _ => cases h

/-- The operation waits in the store or in the queue. -/
theorem fitting_handling (ht : (Point.handling call op).Fits s)
    (h : advance stripe s (.handling call op) o = some r) :
    Fitting stripe s (.handling call op) r := by
  cases o with
  | turn =>
    cases h
    refine ⟨turned_rfl rfl rfl, ht.2, fun op hop => ?_⟩
    rcases Stores.holds_addOperation hop with hop | rfl
    · exact hstores op hop
    · exact ht.1
  | enqueue =>
    cases h
    refine ⟨turned_rfl rfl rfl, ht.2, fun op hop => ?_⟩
    rcases Stores.holds_merge_send hop with hop | rfl
    · exact hstores op hop
    · exact ht.1
  | _ => cases h

theorem fitting_diskSet (ht : (Point.diskSet call merged).Fits s)
    (h : advance stripe s (.diskSet call merged) o = some r) :
    Fitting stripe s (.diskSet call merged) r := by
  cases o with
  | turn =>
    cases h
    have hturned : Turned stripe s { s with disk := s.disk.insert call.key merged }
        ((Point.diskSet call merged).Locks stripe ·) := turned_disk rfl rfl ht.1
    exact ⟨hturned, hturned.hasResults ht.2, fun op hop => hturned.fits (hstores op hop)⟩
  | _ => cases h

/-- The next operation of a flush comes into memory, or the flush is over. -/
theorem fitting_flushing (ht : (Point.flushing operations batch).Fits s)
    (hok : (Point.flushing operations batch).Complete s)
    (h : advance stripe s (.flushing operations batch) o = some r) :
    Fitting stripe s (.flushing operations batch) r := by
  cases operations with
  | nil =>
    cases o with
    | turn =>
      cases h
      refine ⟨turned_rfl rfl rfl, trivial, fun op hop => ?_⟩
      apply hstores op
      cases batch with
      | false => exact hop
      | true => exact Stores.holds_clear hop
    | _ => cases h
  | cons op operations =>
    cases o with
    | turn =>
      cases h
      have hop := ht op List.mem_cons_self
      have hturned : Turned stripe s { s with memory := s.memory.insert op.key op.data }
          ((Point.flushing (op :: operations) batch).Locks stripe ·) := by
        refine turned_memory rfl rfl ?_ (Or.inr hop)
        rintro _ ⟨result, hr, rfl⟩
        exact hok result hr
      exact ⟨hturned, ⟨hturned.fits hop,
        fun op hop => hturned.fits (ht op (List.mem_cons_of_mem _ hop))⟩,
        fun op hop => hturned.fits (hstores op hop)⟩
    | _ => cases h

theorem fitting_flushingDisk (ht : (Point.flushingDisk op operations batch).Fits s)
    (h : advance stripe s (.flushingDisk op operations batch) o = some r) :
    Fitting stripe s (.flushingDisk op operations batch) r := by
  cases o with
  | turn =>
    cases h
    have hturned : Turned stripe s { s with disk := s.disk.insert op.key op.data }
        ((Point.flushingDisk op operations batch).Locks stripe ·) := turned_disk rfl rfl ht.1.1
    exact ⟨hturned, fun op hop => hturned.fits (ht.2 op hop),
      fun op hop => hturned.fits (hstores op hop)⟩
  | _ => cases h

theorem fitting_advance (ht : t.Fits s) (hok : t.Complete s)
    (h : advance stripe s t o = some r) : Fitting stripe s t r := by
  cases t with
  | start call => exact fitting_start hstores h
  | get call => exact fitting_get hstores h
  | diskGet call => exact fitting_diskGet hstores ht h
  | backfilling call existing => exact fitting_backfilling hstores ht h
  | merging call existing => exact fitting_merging hstores ht h
  | handling call operation => exact fitting_handling hstores ht h
  | diskSet call merged => exact fitting_diskSet hstores ht h
  | unlocking call =>
    cases o with
    | turn =>
      cases h
      exact ⟨turned_rfl rfl rfl, ht, hstores⟩
    | _ => cases h
  | flushing operations batch => exact fitting_flushing hstores ht hok h
  | flushingDisk op operations batch => exact fitting_flushingDisk hstores ht h
  | returned call => cases h
  | flushed => cases h

end Advance

/-- A turn takes the free lock of its key, or gives up its lock, or leaves the locks. -/
theorem locks_advance (h : advance stripe s t o = some r) : r.spawned = [] ∧
    ((∃ call, t = .start call ∧ s.locked (stripe call.key) = false ∧ r.task = .get call ∧
      r.shared.locked = Function.update s.locked (stripe call.key) true) ∨
    (∃ call, t = .unlocking call ∧ r.task = .returned call ∧
      r.shared.locked = Function.update s.locked (stripe call.key) false) ∨
    r.shared.locked = s.locked ∧ ∀ i, r.task.Locks stripe i → t.Locks stripe i) := by
  cases t with
  | start call =>
    cases o with
    | turn =>
      obtain ⟨hfree, h⟩ := Option.ite_none_left_eq_some.mp h
      cases h
      exact ⟨rfl, Or.inl ⟨call, rfl, Bool.eq_false_of_not_eq_true hfree, rfl, rfl⟩⟩
    | _ => cases h
  | unlocking call =>
    cases o with
    | turn =>
      cases h
      exact ⟨rfl, Or.inr (Or.inl ⟨call, rfl, rfl, rfl⟩)⟩
    | _ => cases h
  | get call | diskGet call =>
    cases o with
    | turn =>
      simp only [advance] at h
      split at h <;> cases h <;> exact ⟨rfl, Or.inr (Or.inr ⟨rfl, fun i hi => hi⟩)⟩
    | _ => cases h
  | merging call existing =>
    cases o with
    | merged results timestamp =>
      obtain ⟨-, h⟩ := Option.ite_none_right_eq_some.mp h
      cases h
      refine ⟨rfl, Or.inr (Or.inr ⟨rfl, fun i hi => ?_⟩)⟩
      cases call <;> exact hi
    | _ => cases h
  | flushing operations batch =>
    cases operations <;> cases o <;> cases h <;>
      exact ⟨rfl, Or.inr (Or.inr ⟨rfl, fun i hi => hi.elim⟩)⟩
  | returned call | flushed => cases h
  | _ => cases o <;> cases h <;> exact ⟨rfl, Or.inr (Or.inr ⟨rfl, fun i hi => hi⟩)⟩

omit [DecidableEq ι] in
/-- An event leaves the levels and the locks; a flush takes operations that have waited. -/
theorem event_spec {e : External K P} {r : Effect (Cache K P ι) (Point K P) Unit}
    (h : event s e = some r) :
    r.shared.memory = s.memory ∧ r.shared.disk = s.disk ∧ r.shared.locked = s.locked ∧
      (∀ op, r.shared.stores.Holds op → s.stores.Holds op) ∧
      ∀ t ∈ r.spawned, (∃ call, t = .start call) ∨
        ∃ ops batch, t = .flushing ops batch ∧ ∀ op ∈ ops, s.stores.Holds op := by
  cases e with
  | call call =>
    cases h
    exact ⟨rfl, rfl, rfl, fun _ h => h, fun t ht => Or.inl ⟨call, List.mem_singleton.mp ht⟩⟩
  | process =>
    cases h
    exact ⟨rfl, rfl, rfl, fun _ h => Stores.holds_receive h, fun t ht => by cases ht⟩
  | flushGlobalBuffer plugin written =>
    simp only [event, Option.bind_eq_some_iff, Option.ite_none_right_eq_some,
      Option.some.injEq] at h
    obtain ⟨r, hr, hsort, rfl⟩ := h
    have hholds := Stores.holds_flushBuffer hr
    exact ⟨rfl, rfl, rfl, hholds.2, fun t ht => Or.inr ⟨written, false,
      List.mem_singleton.mp ht, fun op hop => hholds.1 op (hsort.1.subset hop)⟩⟩
  | executeBatchWrite written =>
    simp only [event] at h
    split_ifs at h with hempty hsort
    · cases h
      exact ⟨rfl, rfl, rfl, fun _ h => h, fun t ht => by cases ht⟩
    · cases h
      exact ⟨rfl, rfl, rfl, fun _ h => h, fun t ht => Or.inr ⟨written, true,
        List.mem_singleton.mp ht,
        fun op hop => Or.inr (Stores.mem_compressed.mp (hsort.1.subset hop))⟩⟩
  | flushAllBuffer plugin =>
    obtain ⟨r, hr, rfl⟩ := Option.map_eq_some_iff.mp h
    have hholds := Stores.holds_flushBuffer hr
    exact ⟨rfl, rfl, rfl, hholds.2, fun t ht => Or.inr ⟨r.1, false,
      List.mem_singleton.mp ht, hholds.1⟩⟩
  | flushOperationMap written =>
    simp only [event, Option.ite_none_right_eq_some, Option.some.injEq] at h
    obtain ⟨hperm, rfl⟩ := h
    exact ⟨rfl, rfl, rfl, fun _ h => h, fun t ht => Or.inr ⟨written, false,
      List.mem_singleton.mp ht,
      fun op hop => Or.inr (Stores.mem_compressed.mp (hperm.subset hop))⟩⟩
  | cleanup plugin =>
    simp only [event, Option.ite_none_right_eq_some, Option.some.injEq] at h
    obtain ⟨-, rfl⟩ := h
    exact ⟨rfl, rfl, rfl, fun _ h => Stores.holds_dropBuffer h, fun t ht => by cases ht⟩

end Tasks

/-! ### Runs -/

section Runs

variable [DecidableEq P] {stripe : K → ι} {p q : CachePool K P ι}

variable (stripe p) in
/-- A lock has one task, what the tasks have in hand agrees with the cache, and `Get` returns the
results of every operation that waits. -/
structure Inv : Prop where
  exclusive : p.tasks.Pairwise fun t u => ∀ i, t.Locks stripe i → ¬u.Locks stripe i
  locked : ∀ t ∈ p.tasks, ∀ i, t.Locks stripe i → p.shared.locked i = true
  tasks : ∀ t ∈ p.tasks, t.Fits p.shared
  stores : ∀ op, p.shared.stores.Holds op → p.shared.Fits op

variable [DecidableEq ι]

/-- After a turn the locks are those of the tasks, one for each. -/
theorem locks_step {others : List (Point K P)} {t : Point K P} {s : Cache K P ι} {o : Outcome}
    {r : CacheTurn K P ι}
    (hex : (t :: others).Pairwise fun t u => ∀ i, t.Locks stripe i → ¬u.Locks stripe i)
    (hlocked : ∀ u ∈ t :: others, ∀ i, u.Locks stripe i → s.locked i = true)
    (h : advance stripe s t o = some r) :
    ((r.task :: others).Pairwise fun t u => ∀ i, t.Locks stripe i → ¬u.Locks stripe i) ∧
      ∀ u ∈ r.task :: others, ∀ i, u.Locks stripe i → r.shared.locked i = true := by
  obtain ⟨hself, hothers⟩ := List.pairwise_cons.mp hex
  have hold : ∀ u ∈ others, ∀ i, u.Locks stripe i → s.locked i = true :=
    fun u hu => hlocked u (List.mem_cons_of_mem _ hu)
  rcases (locks_advance h).2 with ⟨call, rfl, hfree, htask, hnew⟩ | ⟨call, rfl, htask, hnew⟩ |
    ⟨hnew, htask⟩
  · rw [htask, hnew]
    refine ⟨List.pairwise_cons.mpr ⟨?_, hothers⟩, List.forall_mem_cons.mpr ⟨?_, ?_⟩⟩
    · rintro u hu _ rfl hlock
      rw [hold u hu _ hlock] at hfree
      cases hfree
    · rintro _ rfl
      exact Function.update_self ..
    · intro u hu i hlock
      rw [Function.update_apply, hold u hu i hlock, ite_self]
  · rw [htask, hnew]
    refine ⟨List.pairwise_cons.mpr ⟨fun u _ i hlock => hlock.elim, hothers⟩,
      List.forall_mem_cons.mpr ⟨fun i hlock => hlock.elim, fun u hu i hlock => ?_⟩⟩
    have hne : i ≠ stripe call.key := by
      rintro rfl
      exact hself u hu _ rfl hlock
    rw [Function.update_of_ne hne]
    exact hold u hu i hlock
  · rw [hnew]
    exact ⟨List.pairwise_cons.mpr ⟨fun u hu i hlock => hself u hu i (htask i hlock), hothers⟩,
      List.forall_mem_cons.mpr
        ⟨fun i hlock => hlocked t List.mem_cons_self i (htask i hlock), hold⟩⟩

theorem inv_step {a : Action Outcome (External K P)} (hinv : Inv stripe p)
    (hok : FlushesComplete p a) (h : (system stripe).step p a = some q) :
    Inv stripe q ∧ ∀ key rk, p.shared.Visible key rk → q.shared.Visible key rk := by
  have hsymm : ∀ {t u : Point K P}, (∀ i, t.Locks stripe i → ¬u.Locks stripe i) →
      ∀ i, u.Locks stripe i → ¬t.Locks stripe i := fun h i hu ht => h i ht hu
  rcases System.step_perm h with ⟨i, o, t, r, others, rfl, hi, hr, hshared, -, hp, hq⟩ |
    ⟨e, r, rfl, hr, hshared, -, hq⟩
  · have hmem : ∀ u, u ∈ p.tasks ↔ u ∈ t :: others := fun u => hp.mem_iff
    have hspawned := (locks_advance hr).1
    rw [hspawned] at hq
    have hmem' : ∀ u, u ∈ q.tasks ↔ u ∈ r.task :: others := fun u => hq.mem_iff
    have hex := (hp.pairwise_iff hsymm).mp hinv.exclusive
    have ht := (hmem t).mpr List.mem_cons_self
    obtain ⟨hturned, hfits, hstores⟩ :=
      fitting_advance hinv.stores (hinv.tasks t ht) (hok t hi) hr
    obtain ⟨hex', hlocked⟩ :=
      locks_step hex (fun u hu => hinv.locked u ((hmem u).mpr hu)) hr
    rw [← hshared] at hturned hfits hstores hlocked
    refine ⟨⟨(hq.pairwise_iff hsymm).mpr hex', fun u hu => hlocked u ((hmem' u).mp hu), ?_,
      hstores⟩, hturned.grows⟩
    intro u hu
    rcases List.mem_cons.mp ((hmem' u).mp hu) with rfl | hu
    · exact hfits
    · apply hturned.point (hinv.tasks u ((hmem u).mpr (List.mem_cons_of_mem _ hu)))
      exact fun i hlock hheld => (List.pairwise_cons.mp hex).1 u hu i hheld hlock
  · obtain ⟨hmemory, hdisk, hlocked, hholds, hspawned⟩ := event_spec hr
    rw [← hshared] at hmemory hdisk hlocked hholds
    have hturned : Turned stripe p.shared q.shared fun _ => False := turned_rfl hmemory hdisk
    have hmem : ∀ u ∈ q.tasks, u ∈ r.spawned ∨ u ∈ p.tasks :=
      fun u hu => List.mem_append.mp (hq.subset hu)
    have hfree : ∀ u ∈ r.spawned, ∀ i, ¬u.Locks stripe i := by
      intro u hu i hlock
      rcases hspawned u hu with ⟨call, rfl⟩ | ⟨ops, batch, rfl, -⟩ <;> exact hlock
    refine ⟨⟨?_, fun u hu i hlock => ?_, fun u hu => ?_, fun op hop => ?_⟩, hturned.grows⟩
    · apply (hq.pairwise_iff hsymm).mpr
      apply List.pairwise_append.mpr
      refine ⟨?_, hinv.exclusive, fun u hu _ _ i hlock => absurd hlock (hfree u hu i)⟩
      exact List.pairwise_of_forall_mem_list fun u hu _ _ i hlock => absurd hlock (hfree u hu i)
    · rw [hlocked]
      exact hinv.locked u ((hmem u hu).resolve_left fun h => hfree u h i hlock) i hlock
    · rcases hmem u hu with hu | hu
      · rcases hspawned u hu with ⟨call, rfl⟩ | ⟨ops, batch, rfl, hops⟩
        · trivial
        · exact fun op hop => hturned.fits (hinv.stores op (hops op hop))
      · exact hturned.point (hinv.tasks u hu) fun _ _ hheld => hheld
    · exact hturned.fits (hinv.stores op (hholds op hop))

theorem inv_run {as : List (Action Outcome (External K P))} (hinv : Inv stripe p)
    (hok : (system stripe).Along FlushesComplete p as) (h : (system stripe).run p as = some q) :
    Inv stripe q ∧ ∀ key rk, p.shared.Visible key rk → q.shared.Visible key rk := by
  induction as generalizing p with
  | nil =>
    cases h
    exact ⟨hinv, fun _ _ h => h⟩
  | cons a as ih =>
    obtain ⟨p', hs, hr⟩ := (System.run_cons _).mp h
    obtain ⟨hinv', hgrows⟩ := inv_step hinv (hok p' hs).1 hs
    obtain ⟨hq, hgrows'⟩ := ih hinv' (hok p' hs).2 hr
    exact ⟨hq, fun key rk hk => hgrows' key rk (hgrows key rk hk)⟩

omit [DecidableEq ι] in
theorem inv_start (disk : Table K (List SearchResult)) :
    Inv stripe (start disk : CachePool K P ι) := by
  refine ⟨List.Pairwise.nil, List.forall_mem_nil _, List.forall_mem_nil _, ?_⟩
  rintro op (⟨_, _, hl, -⟩ | ⟨_, hl⟩) <;> cases hl

/-- In every run whose flushes put no less into memory than is there, what `Get` returns of a key
never loses a result, and it has the results of every call that has returned. -/
theorem never_shrinks {disk : Table K (List SearchResult)}
    {a b : List (Action Outcome (External K P))}
    (hp : (system stripe).run (start disk) a = some p) (hq : (system stripe).run p b = some q)
    (hok : (system stripe).Along FlushesComplete (start disk) (a ++ b)) :
    (∀ key rk, p.shared.Visible key rk → q.shared.Visible key rk) ∧
      ∀ call, .returned call ∈ q.tasks → ∀ result ∈ call.results,
        q.shared.Visible call.key (generateResultKey result) := by
  obtain ⟨hokp, hokq⟩ := hok.append hp
  have hinvp := (inv_run (inv_start disk) hokp hp).1
  obtain ⟨hinvq, hgrows⟩ := inv_run hinvp hokq hq
  exact ⟨hgrows, fun call hcall result hr => hinvq.tasks _ hcall _ ⟨result, hr, rfl⟩⟩

/-- A merge of one result, and the flush that writes it. -/
theorem never_shrinks_merge : ∃ p q : CachePool ℕ ℕ ℕ,
    (system (· % 64)).run (start ∅)
      [.event (.call (.mergeIntoMainCache 0 [{ uniqueID := "a" }] 60 false 0)),
        .resume 0 .turn, .resume 0 .turn, .resume 0 .turn,
        .resume 0 (.merged [{ uniqueID := "a" }] 1), .resume 0 .turn, .resume 0 .turn] = some p ∧
    (system (· % 64)).run p
      [.event (.flushGlobalBuffer 0 [⟨0, [{ uniqueID := "a" }], 60, 0, 1, 2⟩]),
        .resume 1 .turn, .resume 1 .turn, .resume 1 .turn] = some q ∧
    (∀ key rk, p.shared.Visible key rk → q.shared.Visible key rk) ∧
      ∀ call, .returned call ∈ q.tasks → ∀ result ∈ call.results,
        q.shared.Visible call.key (generateResultKey result) := by
  have hp : (system (· % 64)).run (start ∅ : CachePool ℕ ℕ ℕ)
      [.event (.call (.mergeIntoMainCache 0 [{ uniqueID := "a" }] 60 false 0)),
        .resume 0 .turn, .resume 0 .turn, .resume 0 .turn,
        .resume 0 (.merged [{ uniqueID := "a" }] 1), .resume 0 .turn, .resume 0 .turn] =
      some _ := rfl
  exact ⟨_, _, hp, rfl, never_shrinks hp
    (b := [.event (.flushGlobalBuffer 0 [⟨0, [{ uniqueID := "a" }], 60, 0, 1, 2⟩]),
      .resume 1 .turn, .resume 1 .turn, .resume 1 .turn]) rfl (by decide)⟩

/-- A flush puts the results of a merge in the place of those that a last write has added to. -/
theorem flush_shrinks :
    ¬∀ (p q : CachePool ℕ ℕ ℕ) (as bs : List (Action Outcome (External ℕ ℕ))),
      (system (· % 64)).run (start ∅) as = some p → (system (· % 64)).run p bs = some q →
        (∀ key rk, p.shared.Visible key rk → q.shared.Visible key rk) ∧
          ∀ call, .returned call ∈ q.tasks → ∀ result ∈ call.results,
            q.shared.Visible call.key (generateResultKey result) := by
  intro h
  have hgrows := (h _ _
    [.event (.call (.mergeIntoMainCache 0 [{ uniqueID := "a" }] 60 false 0)),
      .resume 0 .turn, .resume 0 .turn, .resume 0 .turn,
      .resume 0 (.merged [{ uniqueID := "a" }] 1), .resume 0 .turn, .resume 0 .turn,
      .event (.call (.writeFinalMainCache 0 [{ uniqueID := "b" }] 60)),
      .resume 1 .turn, .resume 1 .turn,
      .resume 1 (.merged [{ uniqueID := "a" }, { uniqueID := "b" }] 2),
      .resume 1 .turn, .resume 1 .turn]
    [.event (.flushGlobalBuffer 0 [⟨0, [{ uniqueID := "a" }], 60, 0, 1, 2⟩]),
      .resume 2 .turn, .resume 2 .turn, .resume 2 .turn] rfl rfl).1 0 "b" (by decide)
  revert hgrows
  decide

end Runs

end AllInOneBackup.PanSou.MainCache
