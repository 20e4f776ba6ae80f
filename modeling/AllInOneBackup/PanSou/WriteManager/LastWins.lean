import AllInOneBackup.PanSou.WriteManager.Flush

/-! The last operation of a key. A flush sorts its operations by priority first, so an older one of
a larger number comes after a newer one of the same key, and two stores that hold operations of one
key may be flushed in either order. The disk ends with the newest operation of each key, and no
flush writes an older one over a newer one, just when the numbers in each sorted flush do not go
against the timestamps and the last flush of each key has a newest operation of it. -/

namespace AllInOneBackup.PanSou.WriteManager

open DiskCache (Table lookup_of_lookup_erase eq_of_lookup_insert)

variable {K D P : Type} [DecidableEq K]

/-! ### Model -/

/-- The manager, the operations it has accepted, those that `operationMap` has given up for
another, the flushes, and what the main cache was handed last for each key. -/
structure Manager (K D P : Type) where
  stores : Stores K D P := {}
  accepted : List (CacheOperation K D P) := []
  merged : List (CacheOperation K D P × CacheOperation K D P) := []
  flushes : List (Flush K D P) := []
  disk : Table K (CacheOperation K D P) := ∅

/-- A call or a turn of the background goroutines, one after the other, with the order in which
the operations are written. -/
inductive Step (K D P : Type)
  | handle (op : CacheOperation K D P)
  | enqueue (op : CacheOperation K D P)
  | process
  | flushGlobalBuffer (plugin : P) (written : List (CacheOperation K D P))
  | executeBatchWrite (written : List (CacheOperation K D P))
  | flushAllBuffer (plugin : P)
  | flushOperationMap (written : List (CacheOperation K D P))
  | cleanup (plugin : P)

namespace Manager

variable (m : Manager K D P)

/-- `batchWriteToDisk`. -/
def write (written : List (CacheOperation K D P)) (sorted : Bool) : Manager K D P :=
  { m with
    flushes := m.flushes ++ [⟨written, sorted⟩]
    disk := written.foldl (fun disk op => disk.insert op.key op) m.disk }

/-- `handleWithGlobalBuffer`. -/
def handle [DecidableEq P] (op : CacheOperation K D P) : Manager K D P :=
  { m with stores := m.stores.addOperation op, accepted := m.accepted ++ [op] }

/-- `enqueueForBatchWrite`. -/
def enqueue (op : CacheOperation K D P) : Manager K D P :=
  { m with
    stores := (m.stores.merge op).send op
    accepted := m.accepted ++ [op]
    merged := m.merged ++ (m.stores.operationMap.lookup op.key).toList.map (·, op) }

variable [DecidableEq D] [DecidableEq P]

def step : Step K D P → Option (Manager K D P)
  | .handle op => some (m.handle op)
  | .enqueue op => some (m.enqueue op)
  | .process => some { m with stores := m.stores.receive }
  | .flushGlobalBuffer plugin written => (m.stores.flushBuffer plugin).bind fun r =>
    if Sorted r.1 written then some ({ m with stores := r.2 }.write written true) else none
  | .executeBatchWrite written =>
    if m.stores.queueBuffer = [] ∨ m.stores.compressed = [] then some m
    else if Sorted m.stores.compressed written then
      some ({ m with stores := m.stores.clear }.write written true)
    else none
  | .flushAllBuffer plugin => (m.stores.flushBuffer plugin).map fun r =>
    { m with stores := r.2 }.write r.1 false
  | .flushOperationMap written =>
    if written.Perm m.stores.compressed then some (m.write written false) else none
  | .cleanup plugin =>
    if m.stores.buffers.lookup plugin = some [] then
      some { m with stores := m.stores.dropBuffer plugin }
    else none

end Manager

def newManager : Manager K D P := {}

def run [DecidableEq D] [DecidableEq P] (steps : List (Step K D P)) : Option (Manager K D P) :=
  steps.foldlM (fun m t => m.step t) newManager

/-! ### The property and the condition -/

namespace Manager

variable (m : Manager K D P)

def InOrder : Prop := m.accepted.Pairwise fun a b => a.timestamp ≤ b.timestamp

/-- Every operation that is still in a buffer or in the map has been written. -/
def Drained [DecidableEq P] : Prop :=
  (∀ plugin ops, m.stores.buffers.lookup plugin = some ops → ops = []) ∧
    ∀ key op, m.stores.operationMap.lookup key = some op → ∃ f ∈ m.flushes, op ∈ f.written

/-- The last flush with operations of the key. -/
def lastFlush (key : K) : Option (Flush K D P) :=
  (m.flushes.filter fun f => f.ofKey key ≠ []).getLast?

/-- The disk has a newest operation of every key. -/
def DiskNewest : Prop :=
  ∀ op ∈ m.accepted, ∃ w ∈ m.accepted, m.disk.lookup op.key = some w ∧ w.key = op.key ∧
    op.timestamp ≤ w.timestamp

/-- The disk has a newest operation of every key, and neither a flush nor the map has put an
operation in the place of a newer one. -/
def LastWins : Prop :=
  m.DiskNewest ∧ (∀ f ∈ m.flushes, f.KeepsNewer) ∧ ∀ p ∈ m.merged, p.1.timestamp ≤ p.2.timestamp

/-- The numbers do not go against the timestamps in a sorted flush, and the last flush of a key has
a newest operation of it. -/
def InAge : Prop :=
  (∀ f ∈ m.flushes, f.sorted = true → f.PriorityByAge) ∧
    ∀ key f, m.lastFlush key = some f →
      ∃ w ∈ f.ofKey key, ∀ op ∈ m.accepted, op.key = key → op.timestamp ≤ w.timestamp

end Manager

/-! ### The last flush -/

namespace Manager

variable {m : Manager K D P} {f : Flush K D P} {key : K} {op : CacheOperation K D P}
  {written : List (CacheOperation K D P)}

theorem mem_of_lastFlush (h : m.lastFlush key = some f) : f ∈ m.flushes ∧ f.ofKey key ≠ [] := by
  have hf := List.mem_of_getLast? h
  simpa using hf

theorem exists_lastFlush (hf : f ∈ m.flushes) (ho : op ∈ f.ofKey key) :
    ∃ g, m.lastFlush key = some g := by
  apply Option.ne_none_iff_exists'.mp
  intro hn
  have hmem : f ∈ m.flushes.filter fun f => f.ofKey key ≠ [] := by
    simpa using ⟨hf, List.ne_nil_of_mem ho⟩
  rw [List.getLast?_eq_none_iff.mp hn] at hmem
  cases hmem

theorem lastFlush_write (s : Stores K D P) (sorted : Bool) :
    ({ m with stores := s }.write written sorted).lastFlush key =
      if (⟨written, sorted⟩ : Flush K D P).ofKey key = [] then m.lastFlush key
      else some ⟨written, sorted⟩ := by
  have hflushes : ({ m with stores := s }.write written sorted).flushes =
      m.flushes ++ [⟨written, sorted⟩] := rfl
  rw [lastFlush, hflushes, List.filter_append, List.getLast?_append]
  split_ifs with hnil
  · simp [hnil, lastFlush]
  · simp [hnil]
end Manager

/-! ### Invariants -/

variable [DecidableEq P]

namespace Manager

/-- What is waiting or written has been accepted, and the disk has what the last flush of a key
wrote last. -/
structure Held (m : Manager K D P) : Prop where
  buffers : ∀ plugin ops, m.stores.buffers.lookup plugin = some ops → ops.Sublist m.accepted
  operationMap : ∀ key op, m.stores.operationMap.lookup key = some op →
    op.key = key ∧ op ∈ m.accepted
  written : ∀ f ∈ m.flushes, ∀ op ∈ f.written, op ∈ m.accepted
  sorted : ∀ f ∈ m.flushes, f.sorted = true → f.written.Pairwise fun a b => ¬b.Precedes a
  disk : ∀ key, m.disk.lookup key = (m.lastFlush key).bind fun f => (f.ofKey key).getLast?

/-- The operation is in a buffer, or one of its key that is no older is in the map or written. -/
def Covered (m : Manager K D P) (op : CacheOperation K D P) : Prop :=
  (∃ plugin ops, m.stores.buffers.lookup plugin = some ops ∧ op ∈ ops) ∨
    (∃ w, m.stores.operationMap.lookup op.key = some w ∧ op.timestamp ≤ w.timestamp) ∨
    ∃ f ∈ m.flushes, ∃ w ∈ f.ofKey op.key, op.timestamp ≤ w.timestamp

/-- What follows when the operations come in the order of their timestamps. -/
structure Aged (m : Manager K D P) : Prop where
  covered : ∀ op ∈ m.accepted, m.Covered op
  unsorted : ∀ f ∈ m.flushes, f.sorted = false → f.KeepsNewer
  merged : ∀ p ∈ m.merged, p.1.timestamp ≤ p.2.timestamp

def Inv (m : Manager K D P) : Prop := m.Held ∧ (m.InOrder → m.Aged)

variable {m : Manager K D P} {key : K} {op : CacheOperation K D P}
  {ops written : List (CacheOperation K D P)}

theorem Held.write (h : m.Held) {s : Stores K D P} {sorted : Bool}
    (hb : ∀ plugin ops, s.buffers.lookup plugin = some ops → ops.Sublist m.accepted)
    (hm : ∀ key op, s.operationMap.lookup key = some op → op.key = key ∧ op ∈ m.accepted)
    (hw : ∀ op ∈ written, op ∈ m.accepted)
    (hs : sorted = true → written.Pairwise fun a b => ¬b.Precedes a) :
    ({ m with stores := s }.write written sorted).Held where
  buffers := hb
  operationMap := hm
  written := by
    intro f hf
    rcases List.mem_append.mp hf with hf | hf
    · exact h.written f hf
    · rw [List.mem_singleton.mp hf]
      exact hw
  sorted := by
    intro f hf
    rcases List.mem_append.mp hf with hf | hf
    · exact h.sorted f hf
    · rw [List.mem_singleton.mp hf]
      exact hs
  disk := by
    intro key
    have hd : ({ m with stores := s }.write written sorted).disk.lookup key =
        (((⟨written, sorted⟩ : Flush K D P).ofKey key).getLast?).or (m.disk.lookup key) :=
      lookup_writes written m.disk key
    rw [hd, h.disk key, lastFlush_write]
    split_ifs with hnil
    · rw [hnil]
      rfl
    · obtain ⟨w, hw⟩ := Option.ne_none_iff_exists'.mp (mt List.getLast?_eq_none_iff.mp hnil)
      rw [Option.bind_some, hw, Option.some_or]

theorem Aged.write (h : m.Aged) {s : Stores K D P} {sorted : Bool}
    (hb : ∀ plugin ops, m.stores.buffers.lookup plugin = some ops → ∀ op ∈ ops,
      op ∈ written ∨ ∃ plugin ops, s.buffers.lookup plugin = some ops ∧ op ∈ ops)
    (hm : ∀ key w, m.stores.operationMap.lookup key = some w →
      w.key = key ∧ w ∈ written ∨ s.operationMap.lookup key = some w)
    (hs : sorted = false → (⟨written, sorted⟩ : Flush K D P).KeepsNewer) :
    ({ m with stores := s }.write written sorted).Aged where
  covered := by
    intro op ho
    have hnew : (⟨written, sorted⟩ : Flush K D P) ∈
        ({ m with stores := s }.write written sorted).flushes :=
      List.mem_append_right _ (List.mem_singleton_self _)
    rcases h.covered op ho with ⟨plugin, ops, hl, hmem⟩ | ⟨w, hl, hle⟩ | ⟨f, hf, w, hw, hle⟩
    · rcases hb plugin ops hl op hmem with hw | hl
      · exact Or.inr (Or.inr ⟨_, hnew, op, Flush.mem_ofKey.mpr ⟨hw, rfl⟩, le_rfl⟩)
      · exact Or.inl hl
    · rcases hm op.key w hl with ⟨hk, hw⟩ | hl
      · exact Or.inr (Or.inr ⟨_, hnew, w, Flush.mem_ofKey.mpr ⟨hw, hk⟩, hle⟩)
      · exact Or.inr (Or.inl ⟨w, hl, hle⟩)
    · exact Or.inr (Or.inr ⟨f, List.mem_append_left _ hf, w, hw, hle⟩)
  unsorted := by
    intro f hf
    rcases List.mem_append.mp hf with hf | hf
    · exact h.unsorted f hf
    · rw [List.mem_singleton.mp hf]
      exact hs
  merged := h.merged

/-- A change of the stores that loses no operation. -/
theorem Inv.put (h : m.Inv) {s : Stores K D P} (hm : s.operationMap = m.stores.operationMap)
    (hb : ∀ plugin ops, s.buffers.lookup plugin = some ops →
      m.stores.buffers.lookup plugin = some ops)
    (hc : ∀ plugin ops, m.stores.buffers.lookup plugin = some ops → ops ≠ [] →
      s.buffers.lookup plugin = some ops) : ({ m with stores := s } : Manager K D P).Inv := by
  constructor
  · exact ⟨fun plugin ops hl => h.1.buffers plugin ops (hb plugin ops hl),
      fun key op hl => h.1.operationMap key op (hm ▸ hl), h.1.written, h.1.sorted, h.1.disk⟩
  · intro ho
    refine ⟨fun op hop => ?_, (h.2 ho).unsorted, (h.2 ho).merged⟩
    rcases (h.2 ho).covered op hop with ⟨plugin, ops, hl, hmem⟩ | ⟨w, hl, hle⟩ | hf
    · exact Or.inl ⟨plugin, ops, hc plugin ops hl (List.ne_nil_of_mem hmem), hmem⟩
    · exact Or.inr (Or.inl ⟨w, hm ▸ hl, hle⟩)
    · exact Or.inr (Or.inr hf)

theorem Inv.handle (h : m.Inv) : (m.handle op).Inv := by
  let old := (m.stores.buffers.lookup op.pluginName).getD []
  have hnew : (m.handle op).stores.buffers.lookup op.pluginName = some (old ++ [op]) :=
    AList.lookup_insert _
  have hne : ∀ plugin, plugin ≠ op.pluginName →
      (m.handle op).stores.buffers.lookup plugin = m.stores.buffers.lookup plugin :=
    fun plugin hp => AList.lookup_insert_ne hp
  have hold : ∀ ops, m.stores.buffers.lookup op.pluginName = some ops → ops = old := by
    intro ops hl
    simp [old, hl]
  have hsub : old.Sublist m.accepted := by
    rcases hl : m.stores.buffers.lookup op.pluginName with _ | ops
    · simp [old, hl]
    · rw [← hold ops hl]
      exact h.1.buffers _ ops hl
  constructor
  · refine ⟨fun plugin ops hl => ?_, fun key w hl => ?_, fun f hf w hw => ?_, h.1.sorted, h.1.disk⟩
    · rcases eq_or_ne plugin op.pluginName with rfl | hp
      · rw [hnew] at hl
        rw [← Option.some.inj hl]
        exact hsub.append (List.Sublist.refl _)
      · rw [hne plugin hp] at hl
        exact (h.1.buffers plugin ops hl).trans (List.sublist_append_left _ _)
    · have hk := h.1.operationMap key w hl
      exact ⟨hk.1, List.mem_append_left _ hk.2⟩
    · exact List.mem_append_left _ (h.1.written f hf w hw)
  · intro ho
    have ha := h.2 (List.pairwise_append.mp ho).1
    refine ⟨fun w hw => ?_, ha.unsorted, ha.merged⟩
    rcases List.mem_append.mp hw with hw | hw
    · rcases ha.covered w hw with ⟨plugin, ops, hl, hmem⟩ | hrest
      · rcases eq_or_ne plugin op.pluginName with rfl | hp
        · rw [hold ops hl] at hmem
          exact Or.inl ⟨_, _, hnew, List.mem_append_left _ hmem⟩
        · exact Or.inl ⟨plugin, ops, (hne plugin hp).trans hl, hmem⟩
      · exact Or.inr hrest
    · rw [List.mem_singleton.mp hw]
      exact Or.inl ⟨_, _, hnew, List.mem_append_right _ (List.mem_singleton_self _)⟩

theorem Inv.enqueue (h : m.Inv) : (m.enqueue op).Inv := by
  have hb : (m.enqueue op).stores.buffers = m.stores.buffers := Stores.send_buffers _ _
  have hm : (m.enqueue op).stores.operationMap = m.stores.operationMap.insert op.key op :=
    Stores.send_operationMap _ _
  have hnew : (m.enqueue op).stores.operationMap.lookup op.key = some op := by
    rw [hm, AList.lookup_insert]
  have hne : ∀ key, key ≠ op.key →
      (m.enqueue op).stores.operationMap.lookup key = m.stores.operationMap.lookup key := by
    intro key hk
    rw [hm, AList.lookup_insert_ne hk]
  constructor
  · refine ⟨fun plugin ops hl => ?_, fun key w hl => ?_, fun f hf w hw => ?_, h.1.sorted, h.1.disk⟩
    · rw [hb] at hl
      exact (h.1.buffers plugin ops hl).trans (List.sublist_append_left _ _)
    · rcases eq_or_ne key op.key with rfl | hk
      · rw [hnew] at hl
        rw [← Option.some.inj hl]
        exact ⟨rfl, List.mem_append_right _ (List.mem_singleton_self _)⟩
      · rw [hne key hk] at hl
        have hw := h.1.operationMap key w hl
        exact ⟨hw.1, List.mem_append_left _ hw.2⟩
    · exact List.mem_append_left _ (h.1.written f hf w hw)
  · intro ho
    have ha := h.2 (List.pairwise_append.mp ho).1
    have hlast : ∀ w ∈ m.accepted, w.timestamp ≤ op.timestamp := fun w hw =>
      (List.pairwise_append.mp ho).2.2 w hw op (List.mem_singleton_self _)
    refine ⟨fun w hw => ?_, ha.unsorted, fun p hp => ?_⟩
    · rcases List.mem_append.mp hw with hw | hw
      · by_cases hk : w.key = op.key
        · exact Or.inr (Or.inl ⟨op, hk ▸ hnew, hlast w hw⟩)
        · rcases ha.covered w hw with ⟨plugin, ops, hl, hmem⟩ | ⟨v, hl, hle⟩ | hf
          · exact Or.inl ⟨plugin, ops, hb ▸ hl, hmem⟩
          · exact Or.inr (Or.inl ⟨v, (hne _ hk).trans hl, hle⟩)
          · exact Or.inr (Or.inr hf)
      · rw [List.mem_singleton.mp hw]
        exact Or.inr (Or.inl ⟨op, hnew, le_rfl⟩)
    · rcases List.mem_append.mp hp with hp | hp
      · exact ha.merged p hp
      · simp only [List.mem_map, Option.mem_toList] at hp
        obtain ⟨w, hl, rfl⟩ := hp
        exact hlast w (h.1.operationMap _ w hl).2

/-- A buffer is written, sorted or as it is. -/
theorem Inv.flushBuffer (h : m.Inv) {plugin : P} {sorted : Bool}
    (hl : m.stores.buffers.lookup plugin = some ops) (hw : written.Perm ops)
    (hs : sorted = true → written.Pairwise fun a b => ¬b.Precedes a)
    (hu : sorted = false → written = ops) :
    ({ m with stores := { m.stores with buffers := m.stores.buffers.insert plugin [] } }.write
      written sorted).Inv := by
  have hsub := h.1.buffers plugin ops hl
  constructor
  · refine h.1.write ?_ h.1.operationMap ?_ hs
    · intro p ops' hp
      rcases eq_or_ne p plugin with rfl | hne
      · rw [← eq_of_lookup_insert hp]
        exact List.nil_sublist _
      · rw [AList.lookup_insert_ne hne] at hp
        exact h.1.buffers p ops' hp
    · intro op hop
      exact hsub.subset (hw.subset hop)
  · intro ho
    apply (h.2 ho).write
    · intro p ops' hp op hop
      rcases eq_or_ne p plugin with rfl | hne
      · rw [hl] at hp
        rw [← Option.some.inj hp] at hop
        exact Or.inl (hw.symm.subset hop)
      · exact Or.inr ⟨p, ops', (AList.lookup_insert_ne hne).trans hp, hop⟩
    · exact fun key w hk => Or.inr hk
    · intro hf
      rw [hu hf]
      have hle : ops.Pairwise fun a b => a.timestamp ≤ b.timestamp := List.Pairwise.sublist hsub ho
      show ops.Pairwise fun a b => a.key = b.key → a.timestamp ≤ b.timestamp
      apply hle.imp
      intro a b hab _
      exact hab

theorem Held.keepsNewer (h : m.Held) (hw : written.Perm m.stores.compressed) {sorted : Bool} :
    (⟨written, sorted⟩ : Flush K D P).KeepsNewer := by
  have hkeys : m.stores.compressed.Pairwise fun a b => a.key ≠ b.key := by
    apply List.pairwise_map.mpr
    apply m.stores.operationMap.nodupKeys.pairwise_ne.imp_of_mem
    rintro ⟨key, a⟩ ⟨key', b⟩ ha hb hne
    have hka := (h.operationMap key a (AList.mem_lookup_iff.mpr ha)).1
    have hkb := (h.operationMap key' b (AList.mem_lookup_iff.mpr hb)).1
    rw [hka, hkb]
    exact hne
  exact ((hw.pairwise_iff Ne.symm).mpr hkeys).imp fun hne he => absurd he hne

/-- The map is written, and given up or kept. -/
theorem Inv.writeMap (h : m.Inv) {s : Stores K D P} {sorted : Bool}
    (hb : s.buffers = m.stores.buffers)
    (hm : s.operationMap = ∅ ∨ s.operationMap = m.stores.operationMap)
    (hw : written.Perm m.stores.compressed)
    (hs : sorted = true → written.Pairwise fun a b => ¬b.Precedes a) :
    ({ m with stores := s }.write written sorted).Inv := by
  constructor
  · refine h.1.write ?_ ?_ ?_ hs
    · rw [hb]
      exact h.1.buffers
    · intro key op hl
      rcases hm with hm | hm
      · rw [hm] at hl
        cases hl
      · exact h.1.operationMap key op (hm ▸ hl)
    · intro op hop
      obtain ⟨key, hl⟩ := Stores.mem_compressed.mp (hw.subset hop)
      exact (h.1.operationMap key op hl).2
  · intro ho
    apply (h.2 ho).write
    · exact fun plugin ops hl op hop => Or.inr ⟨plugin, ops, hb ▸ hl, hop⟩
    · intro key w hl
      exact Or.inl ⟨(h.1.operationMap key w hl).1,
        hw.symm.subset (Stores.mem_compressed.mpr ⟨key, hl⟩)⟩
    · exact fun _ => h.1.keepsNewer hw

variable [DecidableEq D]

theorem Inv.step (h : m.Inv) {m' : Manager K D P} {t : Step K D P} (hs : m.step t = some m') :
    m'.Inv := by
  cases t with
  | handle op =>
    cases hs
    exact h.handle
  | enqueue op =>
    cases hs
    exact h.enqueue
  | process =>
    cases hs
    apply h.put (Stores.receive_operationMap _)
    · intro plugin ops hl
      rwa [Stores.receive_buffers] at hl
    · intro plugin ops hl _
      rwa [Stores.receive_buffers]
  | flushGlobalBuffer plugin written =>
    simp only [Manager.step, Stores.flushBuffer, Option.bind_eq_some_iff, Option.map_eq_some_iff,
      Option.ite_none_right_eq_some, Option.some.injEq] at hs
    obtain ⟨_, ⟨ops, hl, rfl⟩, hsort, rfl⟩ := hs
    exact h.flushBuffer hl hsort.1 (fun _ => hsort.2) Bool.noConfusion
  | executeBatchWrite written =>
    simp only [Manager.step] at hs
    split_ifs at hs with hempty hsort
    · cases hs
      exact h
    · cases hs
      exact h.writeMap rfl (Or.inl rfl) hsort.1 fun _ => hsort.2
  | flushAllBuffer plugin =>
    simp only [Manager.step, Stores.flushBuffer, Option.map_eq_some_iff] at hs
    obtain ⟨_, ⟨ops, hl, rfl⟩, rfl⟩ := hs
    exact h.flushBuffer hl (List.Perm.refl _) Bool.noConfusion fun _ => rfl
  | flushOperationMap written =>
    simp only [Manager.step, Option.ite_none_right_eq_some, Option.some.injEq] at hs
    obtain ⟨hperm, rfl⟩ := hs
    exact h.writeMap rfl (Or.inr rfl) hperm Bool.noConfusion
  | cleanup plugin =>
    simp only [Manager.step, Option.ite_none_right_eq_some, Option.some.injEq] at hs
    obtain ⟨hl, rfl⟩ := hs
    apply h.put (s := m.stores.dropBuffer plugin) rfl
    · exact fun p ops hp => lookup_of_lookup_erase hp
    · intro p ops hp hne
      have hplugin : p ≠ plugin := by
        rintro rfl
        exact hne (Option.some.inj (hp.symm.trans hl))
      exact (AList.lookup_erase_ne hplugin).trans hp

end Manager

theorem inv_newManager : (newManager : Manager K D P).Inv := by
  constructor
  · constructor <;> simp [newManager, Manager.lastFlush]
  · intro _
    constructor <;> simp [newManager]

theorem inv_run [DecidableEq D] {steps : List (Step K D P)} {m : Manager K D P}
    (hr : run steps = some m) : m.Inv := by
  have hall : ∀ (steps : List (Step K D P)) (m₀ : Manager K D P), m₀.Inv →
      steps.foldlM (fun m t => m.step t) m₀ = some m → m.Inv := by
    intro steps
    induction steps with
    | nil =>
      intro m₀ h₀ he
      cases he
      exact h₀
    | cons t steps ih =>
      intro m₀ h₀ he
      obtain ⟨m₁, hs, he⟩ := Option.bind_eq_some_iff.mp he
      exact ih m₁ (h₀.step hs) he
  exact hall steps newManager inv_newManager hr

/-! ### The last operation -/

namespace Manager

variable {m : Manager K D P} {f : Flush K D P} {key : K} {op : CacheOperation K D P}

/-- The last flush of a key leaves its last operation of the key on the disk. -/
theorem Held.lookup_disk (h : m.Held) (hf : m.lastFlush key = some f) :
    ∃ w ∈ f.ofKey key, (f.ofKey key).getLast? = some w ∧ m.disk.lookup key = some w := by
  obtain ⟨w, hw⟩ := Option.ne_none_iff_exists'.mp
    (mt List.getLast?_eq_none_iff.mp (mem_of_lastFlush hf).2)
  refine ⟨w, List.mem_of_getLast? hw, hw, ?_⟩
  rw [h.disk key, hf]
  exact hw

/-- When all is written, an operation has one that is no older in a flush. -/
theorem Aged.written (h : m.Aged) (hh : m.Held) (hd : m.Drained) (ho : op ∈ m.accepted) :
    ∃ f ∈ m.flushes, ∃ w ∈ f.ofKey op.key, op.timestamp ≤ w.timestamp := by
  rcases h.covered op ho with ⟨plugin, ops, hl, hmem⟩ | ⟨w, hl, hle⟩ | hf
  · rw [hd.1 plugin ops hl] at hmem
    cases hmem
  · obtain ⟨f, hf, hw⟩ := hd.2 op.key w hl
    exact ⟨f, hf, w, Flush.mem_ofKey.mpr ⟨hw, (hh.operationMap _ w hl).1⟩, hle⟩
  · exact hf

end Manager

/-- When the operations come in the order of their timestamps and all of them have been written, the
last one of each key wins just when the numbers of the sorted flushes do not go against the
timestamps and the last flush of each key has a newest operation of it. -/
theorem lastWins_iff [DecidableEq D] {steps : List (Step K D P)} {m : Manager K D P}
    (hr : run steps = some m) (ho : m.InOrder) (hd : m.Drained) : m.LastWins ↔ m.InAge := by
  have hh := (inv_run hr).1
  have ha := (inv_run hr).2 ho
  constructor
  · rintro ⟨hdisk, hkeeps, -⟩
    refine ⟨fun f hf hs => (Flush.keepsNewer_iff (hh.sorted f hf hs)).mp (hkeeps f hf), ?_⟩
    intro key f hf
    obtain ⟨w, hw, -, hl⟩ := hh.lookup_disk hf
    refine ⟨w, hw, fun op hop hk => ?_⟩
    obtain ⟨v, -, hlv, -, hle⟩ := hdisk op hop
    rw [hk, hl] at hlv
    rwa [← Option.some.inj hlv] at hle
  · rintro ⟨hprio, hlast⟩
    have hkeeps : ∀ f ∈ m.flushes, f.KeepsNewer := by
      intro f hf
      cases hs : f.sorted with
      | false => exact ha.unsorted f hf hs
      | true => exact (Flush.keepsNewer_iff (hh.sorted f hf hs)).mpr (hprio f hf hs)
    refine ⟨fun op hop => ?_, hkeeps, ha.merged⟩
    obtain ⟨g, hg, v, hv, -⟩ := ha.written hh hd hop
    obtain ⟨f, hf⟩ := Manager.exists_lastFlush hg hv
    have hmem := (Manager.mem_of_lastFlush hf).1
    obtain ⟨w, hw, hwlast, hl⟩ := hh.lookup_disk hf
    obtain ⟨u, hu, hnewest⟩ := hlast op.key f hf
    have hwk := Flush.mem_ofKey.mp hw
    refine ⟨w, hh.written f hmem w hwk.1, hl, hwk.2, ?_⟩
    calc op.timestamp ≤ u.timestamp := hnewest op hop rfl
      _ ≤ w.timestamp := (hkeeps f hmem).le_last hwlast hu

/-- An operation of a plugin, and a newer one of the same key that is enqueued. -/
theorem lastWins_iff_enqueue : ∃ m : Manager ℕ ℕ ℕ,
    run [.handle ⟨0, 1, 3600, 0, 1, 3⟩, .enqueue ⟨0, 2, 3600, 0, 2, 1⟩, .process,
      .flushGlobalBuffer 0 [⟨0, 1, 3600, 0, 1, 3⟩],
      .executeBatchWrite [⟨0, 2, 3600, 0, 2, 1⟩]] = some m ∧ (m.LastWins ↔ m.InAge) := by
  have hr : run [.handle ⟨0, 1, 3600, 0, 1, 3⟩, .enqueue ⟨0, 2, 3600, 0, 2, 1⟩, .process,
      .flushGlobalBuffer 0 [⟨0, 1, 3600, 0, 1, 3⟩],
      .executeBatchWrite [(⟨0, 2, 3600, 0, 2, 1⟩ : CacheOperation ℕ ℕ ℕ)]] = some _ := rfl
  refine ⟨_, hr, lastWins_iff hr ?_ ⟨?_, ?_⟩⟩
  · show List.Pairwise _ _
    decide
  · intro plugin ops hl
    cases plugin <;> cases hl
    rfl
  · intro key op hl
    cases hl

/-- A flush writes the older of two operations of a key last, for its larger number. -/
theorem older_written_last : ¬∀ (steps : List (Step ℕ ℕ ℕ)) (m : Manager ℕ ℕ ℕ),
    run steps = some m → m.InOrder → m.Drained → m.LastWins := by
  intro h
  have hlast := h [.handle ⟨0, 1, 3600, 0, 1, 2⟩, .handle ⟨0, 2, 3600, 0, 2, 1⟩,
    .flushGlobalBuffer 0 [⟨0, 2, 3600, 0, 2, 1⟩, ⟨0, 1, 3600, 0, 1, 2⟩]] _ rfl
  apply absurd (hlast ?_ ⟨?_, ?_⟩).1
  · intro hdisk
    obtain ⟨w, -, hl, -, hle⟩ := hdisk ⟨0, 2, 3600, 0, 2, 1⟩ (by decide)
    cases hl
    revert hle
    decide
  · show List.Pairwise _ _
    decide
  · intro plugin ops hl
    cases plugin <;> cases hl
    rfl
  · intro key op hl
    cases hl

end AllInOneBackup.PanSou.WriteManager
