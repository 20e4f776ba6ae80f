import AllInOneBackup.PanSou.DiskCache.Store

/-! `DelayedBatchWriteManager`. An operation waits in the buffer of its plugin or, merged with the
other operations of its key, in `operationMap`, until a flush of the one or a batch run over the
other hands it to the main cache. -/

namespace AllInOneBackup.PanSou.WriteManager

open DiskCache (Table eq_of_lookup_insert lookup_of_lookup_erase)

variable {K D P : Type}

/-- `CacheOperation`. -/
structure CacheOperation (K D P : Type) where
  key : K
  data : D
  ttl : ℤ
  pluginName : P
  timestamp : ℤ
  priority : ℤ
  deriving DecidableEq

/-- The order of `sort.Slice`: a smaller number first, then the older one. -/
def CacheOperation.Precedes (a b : CacheOperation K D P) : Prop :=
  a.priority < b.priority ∨ a.priority = b.priority ∧ a.timestamp < b.timestamp

instance (a b : CacheOperation K D P) : Decidable (a.Precedes b) :=
  inferInstanceAs (Decidable (_ ∨ _))

/-- The buffers of `GlobalBufferManager`, by plugin, and the queue with the operations merged by
key. -/
structure Stores (K D P : Type) where
  buffers : Table P (List (CacheOperation K D P)) := ∅
  operationMap : Table K (CacheOperation K D P) := ∅
  writeQueue : List (CacheOperation K D P) := []
  queueBuffer : List (CacheOperation K D P) := []

/-- The capacity of `writeQueue`. -/
def queueCapacity : ℕ := 1000

namespace Stores

variable (s : Stores K D P) (op : CacheOperation K D P)

/-- `m.writeQueue <- op`, unless the queue is full. -/
def send : Stores K D P :=
  if s.writeQueue.length < queueCapacity then { s with writeQueue := s.writeQueue ++ [op] } else s

@[simp] theorem send_buffers : (s.send op).buffers = s.buffers := by
  unfold send
  split <;> rfl

@[simp] theorem send_operationMap : (s.send op).operationMap = s.operationMap := by
  unfold send
  split <;> rfl

/-- `backgroundProcessor` takes an operation from the queue. -/
def receive : Stores K D P :=
  match s.writeQueue with
  | [] => s
  | op :: ops => { s with writeQueue := ops, queueBuffer := s.queueBuffer ++ [op] }

@[simp] theorem receive_buffers : s.receive.buffers = s.buffers := by
  unfold receive
  split <;> rfl

@[simp] theorem receive_operationMap : s.receive.operationMap = s.operationMap := by
  unfold receive
  split <;> rfl

/-- `getCompressedOperations`, in the order of the map's entries. -/
def compressed : List (CacheOperation K D P) := s.operationMap.entries.map (·.2)

/-- `executeBatchWrite` after its write. -/
def clear : Stores K D P := { s with operationMap := ∅, queueBuffer := [] }

section Map

variable [DecidableEq K]

/-- `enqueueForBatchWrite` up to the queue. -/
def merge : Stores K D P :=
  { s with operationMap := s.operationMap.insert op.key op }

theorem mem_compressed {s : Stores K D P} {op : CacheOperation K D P} :
    op ∈ s.compressed ↔ ∃ key, s.operationMap.lookup key = some op := by
  simp only [compressed, List.mem_map]
  constructor
  · rintro ⟨⟨key, _⟩, he, rfl⟩
    exact ⟨key, AList.mem_lookup_iff.mpr he⟩
  · rintro ⟨key, h⟩
    exact ⟨⟨key, op⟩, AList.mem_lookup_iff.mp h, rfl⟩

end Map

section Buffers

variable [DecidableEq P]

/-- `AddOperation`. -/
def addOperation : Stores K D P :=
  { s with
    buffers := s.buffers.insert op.pluginName
      ((s.buffers.lookup op.pluginName).getD [] ++ [op]) }

/-- `FlushBuffer`: the operations that are taken, if the buffer exists. -/
def flushBuffer (plugin : P) : Option (List (CacheOperation K D P) × Stores K D P) :=
  (s.buffers.lookup plugin).map fun ops => (ops, { s with buffers := s.buffers.insert plugin [] })

/-- `performCleanup` of an empty buffer. -/
def dropBuffer (plugin : P) : Stores K D P := { s with buffers := s.buffers.erase plugin }

end Buffers

section Holds

variable [DecidableEq K] [DecidableEq P] {s : Stores K D P} {op new : CacheOperation K D P}

variable (s op) in
/-- The operation is in a buffer or in the map. -/
def Holds : Prop :=
  (∃ plugin ops, s.buffers.lookup plugin = some ops ∧ op ∈ ops) ∨
    ∃ key, s.operationMap.lookup key = some op

theorem holds_addOperation (h : (s.addOperation new).Holds op) : s.Holds op ∨ op = new := by
  rcases h with ⟨plugin, ops, hl, hop⟩ | h
  · rcases eq_or_ne plugin new.pluginName with rfl | hne
    · rw [← eq_of_lookup_insert hl] at hop
      rcases List.mem_append.mp hop with hop | hop
      · obtain ⟨old, hold⟩ : ∃ old, s.buffers.lookup new.pluginName = some old := by
          apply Option.ne_none_iff_exists'.mp
          intro hnone
          rw [hnone] at hop
          cases hop
        rw [hold] at hop
        exact Or.inl (Or.inl ⟨_, old, hold, hop⟩)
      · exact Or.inr (List.mem_singleton.mp hop)
    · have hold := (AList.lookup_insert_ne hne).symm.trans hl
      exact Or.inl (Or.inl ⟨plugin, ops, hold, hop⟩)
  · exact Or.inl (Or.inr h)

theorem holds_merge_send (h : ((s.merge new).send new).Holds op) : s.Holds op ∨ op = new := by
  simp only [Holds, send_buffers, send_operationMap] at h
  rcases h with h | ⟨key, hl⟩
  · exact Or.inl (Or.inl h)
  · rcases eq_or_ne key new.key with rfl | hne
    · exact Or.inr (eq_of_lookup_insert hl).symm
    · exact Or.inl (Or.inr ⟨key, (AList.lookup_insert_ne hne).symm.trans hl⟩)

theorem holds_flushBuffer {plugin : P} {r : List (CacheOperation K D P) × Stores K D P}
    (h : s.flushBuffer plugin = some r) :
    (∀ op ∈ r.1, s.Holds op) ∧ ∀ op, r.2.Holds op → s.Holds op := by
  obtain ⟨ops, hl, rfl⟩ := Option.map_eq_some_iff.mp h
  refine ⟨fun op hop => Or.inl ⟨plugin, ops, hl, hop⟩, ?_⟩
  rintro op (⟨p, ops', hp, hop⟩ | hmap)
  · rcases eq_or_ne p plugin with rfl | hne
    · rw [← eq_of_lookup_insert hp] at hop
      cases hop
    · exact Or.inl ⟨p, ops', (AList.lookup_insert_ne hne).symm.trans hp, hop⟩
  · exact Or.inr hmap

theorem holds_dropBuffer {plugin : P} (h : (s.dropBuffer plugin).Holds op) : s.Holds op := by
  rcases h with ⟨p, ops, hl, hop⟩ | h
  · exact Or.inl ⟨p, ops, lookup_of_lookup_erase hl, hop⟩
  · exact Or.inr h

theorem holds_receive (h : s.receive.Holds op) : s.Holds op := by
  simpa only [Holds, receive_buffers, receive_operationMap] using h

theorem holds_clear (h : s.clear.Holds op) : s.Holds op := by
  rcases h with h | ⟨key, hl⟩
  · exact Or.inl h
  · cases hl

end Holds

end Stores

end AllInOneBackup.PanSou.WriteManager
