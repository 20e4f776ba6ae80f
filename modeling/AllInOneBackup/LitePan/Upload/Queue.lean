import AllInOneBackup.Concurrency.Pool
import Mathlib

/-! The queue of the upload manager. A pending task takes a slot of its kind where one is free
and no other pending task of the kind precedes it. The order in which tasks precede each other is
the lexicographic order of a key, so the pending tasks of a kind have a first one. -/

namespace AllInOneBackup.LitePan.Upload

/-! ### Tasks -/

inductive Status
  | pending
  | running
  | paused
  | success
  | failed
  | canceled
  | skipped
  deriving DecidableEq

inductive SourceType
  | manual
  | crossTransfer
  | offlineHandoff
  | serverLocal
  deriving DecidableEq

inductive Phase
  | downloading
  | uploading
  deriving DecidableEq

inductive CancelMode
  | pause
  | delete
  deriving DecidableEq

/-- `queueSlotUpload` and `queueSlotDownload`; `queueSlotNone` is the absence of a slot. -/
inductive SlotKind
  | upload
  | download
  deriving DecidableEq

def Status.isActive (status : Status) : Bool := status = .pending ∨ status = .running

def Status.isResumable (status : Status) : Bool :=
  status = .paused ∨ status = .failed ∨ status = .canceled

def Status.isCompleted (status : Status) : Bool := status = .success ∨ status = .skipped

/-- What the queue reads of a `taskState`. The context that `cancel` cancels and the channel
`runDone` are numbered in the order they were made. -/
structure TaskState where
  status : Status
  sourceType : SourceType
  phase : Phase
  queueOrder : ℤ
  createdAt : ℚ
  resumePriority : Bool := false
  cancel : Option ℕ := none
  cancelMode : Option CancelMode := none
  runDone : ℕ

def isCrossTransferDownload (st : TaskState) : Bool :=
  st.sourceType = .crossTransfer ∧ st.phase = .downloading

/-- `taskSlotKindLocked`. -/
def TaskState.slotKind (st : TaskState) : SlotKind :=
  if isCrossTransferDownload st then .download else .upload

variable {K : Type} [LinearOrder K]

/-- The tasks are given with their ids. -/
def pendingTaskPrecedesLocked (a b : (_ : K) × TaskState) : Bool :=
  if a.2.resumePriority ≠ b.2.resumePriority then a.2.resumePriority
  else
    let aq := a.2.queueOrder
    let bq := b.2.queueOrder
    if aq > 0 ∧ bq > 0 ∧ aq ≠ bq then aq < bq
    else if aq > 0 ∧ bq ≤ 0 then true
    else if aq ≤ 0 ∧ bq > 0 then false
    else if a.2.createdAt ≠ b.2.createdAt then a.2.createdAt < b.2.createdAt
    else a.1 < b.1

/-- What the order compares, the most significant first. -/
def orderKey (e : (_ : K) × TaskState) : Bool ×ₗ WithTop ℤ ×ₗ ℚ ×ₗ K :=
  toLex (!e.2.resumePriority, toLex (if e.2.queueOrder > 0 then ↑e.2.queueOrder else ⊤,
    toLex (e.2.createdAt, e.1)))

theorem pendingTaskPrecedesLocked_iff (a b : (_ : K) × TaskState) :
    pendingTaskPrecedesLocked a b = true ↔ orderKey a < orderKey b := by
  obtain ⟨aid, a⟩ := a
  obtain ⟨bid, b⟩ := b
  simp only [pendingTaskPrecedesLocked, orderKey, Prod.Lex.toLex_lt_toLex]
  by_cases hp : a.resumePriority = b.resumePriority
  · by_cases ha : a.queueOrder > 0 <;> by_cases hb : b.queueOrder > 0
    · by_cases hq : a.queueOrder = b.queueOrder
      · by_cases hc : a.createdAt = b.createdAt <;> simp [hp, hb, hq, hc]
      · simp [hp, ha, hb, hq]
    · simp [hp, ha, hb, not_lt.mp hb]
    · simp [hp, ha, hb, not_lt.mp ha]
    · by_cases hc : a.createdAt = b.createdAt <;>
        simp [hp, ha, hb, hc, not_lt.mp ha]
  · cases ha : a.resumePriority <;> cases hb : b.resumePriority <;> simp_all

/-! ### The manager -/

/-- The tasks, the slots and the condition variable. `runningUploads` and `runningDownloads` are
`running`; `ctxs`, `chans` and `broadcasts` count the contexts and channels made and the
broadcasts on `runCond`. -/
structure Manager (K : Type) where
  tasks : AList (fun _ : K => TaskState) := ∅
  queueOrder : ℤ := 0
  limit : ℕ
  running : SlotKind → ℕ := fun _ => 0
  broadcasts : ℕ := 0
  stopping : Bool := false
  ctxs : ℕ := 0
  cancelled : List ℕ := []
  chans : ℕ := 0
  closed : List ℕ := []

namespace Manager

variable (m : Manager K)

/-- A function applied to the state of a task, if the task is there. -/
def patch (taskID : K) (fn : TaskState → TaskState) : Manager K :=
  match m.tasks.lookup taskID with
  | none => m
  | some st => { m with tasks := m.tasks.insert taskID (fn st) }

/-- `removeTaskLocked`. -/
def removeTask (taskID : K) : Manager K := { m with tasks := m.tasks.erase taskID }

/-- Whether a context was cancelled, by itself or with `runCtx`. -/
def ctxErr (ctx : ℕ) : Bool := m.stopping ∨ ctx ∈ m.cancelled

def canAcquireSlotLocked (kind : SlotKind) : Bool := m.running kind < m.limit

def acquireSlotLocked (kind : SlotKind) : Manager K :=
  { m with running := Function.update m.running kind (m.running kind + 1) }

def releaseSlot (kind : SlotKind) : Manager K :=
  if m.running kind > 0 then
    { m with running := Function.update m.running kind (m.running kind - 1) }
  else m

def isNextPendingTaskLocked (taskID : K) (kind : SlotKind) : Bool :=
  match m.tasks.lookup taskID with
  | none => false
  | some current => current.status = .pending ∧ current.slotKind = kind ∧
      m.tasks.entries.all fun other =>
        other.1 = taskID ∨ other.2.status ≠ .pending ∨ other.2.slotKind ≠ kind ∨
          !pendingTaskPrecedesLocked other ⟨taskID, current⟩

/-- A slot of the task's kind is free, and the task is the next to take it. -/
def admits (taskID : K) : Bool :=
  match m.tasks.lookup taskID with
  | none => false
  | some st => m.canAcquireSlotLocked st.slotKind && m.isNextPendingTaskLocked taskID st.slotKind

/-- What a grant does: the slot is counted, and the priority of a resumed task is used up. -/
def grant (taskID : K) (kind : SlotKind) (ctx : ℕ) : Manager K :=
  (m.acquireSlotLocked kind).patch taskID fun st =>
    { st with resumePriority := false, cancel := some ctx }

/-! ### Lookups -/

variable {m}

@[simp] theorem lookup_patch_self (taskID : K) (fn : TaskState → TaskState) :
    (m.patch taskID fn).tasks.lookup taskID = (m.tasks.lookup taskID).map fn := by
  unfold patch
  cases h : m.tasks.lookup taskID with
  | none => simp [h]
  | some st => simp

theorem lookup_patch_of_ne {taskID id : K} (h : id ≠ taskID) (fn : TaskState → TaskState) :
    (m.patch taskID fn).tasks.lookup id = m.tasks.lookup id := by
  unfold patch
  cases m.tasks.lookup taskID with
  | none => rfl
  | some st => exact AList.lookup_insert_ne h

/-- A task after a patch is the patched one, or another one from before. -/
theorem lookup_patch_cases {taskID id : K} {fn : TaskState → TaskState} {st' : TaskState}
    (h : (m.patch taskID fn).tasks.lookup id = some st') :
    ∃ st, m.tasks.lookup id = some st ∧ (id = taskID ∧ st' = fn st ∨ id ≠ taskID ∧ st' = st) := by
  by_cases hid : id = taskID
  · subst hid
    rw [lookup_patch_self] at h
    obtain ⟨st, hst, rfl⟩ := Option.map_eq_some_iff.mp h
    exact ⟨st, hst, .inl ⟨rfl, rfl⟩⟩
  · rw [lookup_patch_of_ne hid] at h
    exact ⟨st', h, .inr ⟨hid, rfl⟩⟩

section Patch

variable (taskID : K) (fn : TaskState → TaskState)

@[simp] theorem patch_running : (m.patch taskID fn).running = m.running := by
  unfold patch
  split <;> rfl

@[simp] theorem patch_limit : (m.patch taskID fn).limit = m.limit := by
  unfold patch
  split <;> rfl

@[simp] theorem patch_broadcasts : (m.patch taskID fn).broadcasts = m.broadcasts := by
  unfold patch
  split <;> rfl

@[simp] theorem patch_stopping : (m.patch taskID fn).stopping = m.stopping := by
  unfold patch
  split <;> rfl

@[simp] theorem patch_closed : (m.patch taskID fn).closed = m.closed := by
  unfold patch
  split <;> rfl

@[simp] theorem patch_chans : (m.patch taskID fn).chans = m.chans := by
  unfold patch
  split <;> rfl

end Patch

section Slots

variable (kind : SlotKind)

omit [LinearOrder K] in
@[simp] theorem releaseSlot_tasks : (m.releaseSlot kind).tasks = m.tasks := by
  unfold releaseSlot
  split <;> rfl

omit [LinearOrder K] in
@[simp] theorem releaseSlot_stopping : (m.releaseSlot kind).stopping = m.stopping := by
  unfold releaseSlot
  split <;> rfl

omit [LinearOrder K] in
@[simp] theorem releaseSlot_closed : (m.releaseSlot kind).closed = m.closed := by
  unfold releaseSlot
  split <;> rfl

omit [LinearOrder K] in
@[simp] theorem releaseSlot_chans : (m.releaseSlot kind).chans = m.chans := by
  unfold releaseSlot
  split <;> rfl

omit [LinearOrder K] in
@[simp] theorem releaseSlot_broadcasts : (m.releaseSlot kind).broadcasts = m.broadcasts := by
  unfold releaseSlot
  split <;> rfl

end Slots

/-- A task is admitted if and only if it is pending, a slot of its kind is free, and no other
pending task of the kind comes before it. -/
theorem admits_iff (taskID : K) : m.admits taskID = true ↔
    ∃ st, m.tasks.lookup taskID = some st ∧ st.status = .pending ∧
      m.running st.slotKind < m.limit ∧
      ∀ id other, m.tasks.lookup id = some other → other.status = .pending →
        other.slotKind = st.slotKind → orderKey ⟨taskID, st⟩ ≤ orderKey ⟨id, other⟩ := by
  unfold admits isNextPendingTaskLocked canAcquireSlotLocked
  cases h : m.tasks.lookup taskID with
  | none => simp
  | some st =>
    have hentries : (m.tasks.entries.all fun other => other.1 = taskID ∨
          other.2.status ≠ .pending ∨ other.2.slotKind ≠ st.slotKind ∨
            !pendingTaskPrecedesLocked other ⟨taskID, st⟩) = true ↔
        ∀ id other, m.tasks.lookup id = some other → other.status = .pending →
          other.slotKind = st.slotKind → orderKey ⟨taskID, st⟩ ≤ orderKey ⟨id, other⟩ := by
      rw [List.all_eq_true]
      constructor
      · intro hall id other hid hpending hkind
        by_cases heq : id = taskID
        · subst heq
          rw [h] at hid
          cases hid
          exact le_rfl
        · have hother := hall ⟨id, other⟩ (AList.mem_lookup_iff.mp hid)
          simpa [heq, hpending, hkind, ← not_lt, ← pendingTaskPrecedesLocked_iff] using hother
      · intro hall e he
        have hkey := hall e.1 e.2 (AList.mem_lookup_iff.mpr he)
        by_cases hpending : e.2.status = .pending <;> by_cases hkind : e.2.slotKind = st.slotKind <;>
          simp [hpending, hkind, ← not_lt, ← pendingTaskPrecedesLocked_iff] at hkey ⊢
        exact .inr hkey
    simp only [decide_eq_true_eq, Bool.and_eq_true, hentries, Option.some.injEq, exists_eq_left',
      true_and]
    tauto

/-- What makes a task stand where it stands in the queue. -/
def SamePlace (st st' : TaskState) : Prop :=
  st'.status = st.status ∧ st'.slotKind = st.slotKind ∧
    ∀ taskID : K, orderKey ⟨taskID, st'⟩ = orderKey ⟨taskID, st⟩

/-- The pending tasks of a kind have a first one. -/
theorem exists_first {taskID : K} {st : TaskState} (h : m.tasks.lookup taskID = some st)
    (hpending : st.status = .pending) : ∃ id first, m.tasks.lookup id = some first ∧
      first.status = .pending ∧ first.slotKind = st.slotKind ∧
      ∀ id' other, m.tasks.lookup id' = some other → other.status = .pending →
        other.slotKind = st.slotKind → orderKey ⟨id, first⟩ ≤ orderKey ⟨id', other⟩ := by
  let queue := m.tasks.entries.filter fun e => e.2.status = .pending ∧ e.2.slotKind = st.slotKind
  have hmem : ∀ id other, (⟨id, other⟩ : (_ : K) × TaskState) ∈ queue ↔
      m.tasks.lookup id = some other ∧ other.status = .pending ∧ other.slotKind = st.slotKind := by
    intro id other
    rw [List.mem_filter, ← AList.mem_lookup_iff]
    simp
  have hne : queue ≠ [] := List.ne_nil_of_mem ((hmem taskID st).mpr ⟨h, hpending, rfl⟩)
  obtain ⟨first, hfirst⟩ : ∃ first, queue.argmin orderKey = some first :=
    Option.ne_none_iff_exists'.mp fun h => hne (List.argmin_eq_none.mp h)
  obtain ⟨hlookup, hp, hk⟩ := (hmem first.1 first.2).mp (List.argmin_mem hfirst)
  refine ⟨first.1, first.2, hlookup, hp, hk, fun id' other hother hp' hk' => ?_⟩
  exact List.le_of_mem_argmin ((hmem id' other).mpr ⟨hother, hp', hk'⟩) hfirst

/-- Where the slots are no freer and no pending task has left the queue, a task that was in its
place is admitted only if it was. -/
theorem admits_of_admits {m' : Manager K} {taskID : K} (hlimit : m'.limit = m.limit)
    (hrunning : m'.running = m.running)
    (htask : ∀ st', m'.tasks.lookup taskID = some st' → st'.status = .pending →
      ∃ st, m.tasks.lookup taskID = some st ∧ SamePlace (K := K) st st')
    (hkeep : ∀ id st, m.tasks.lookup id = some st → st.status = .pending →
      ∃ st', m'.tasks.lookup id = some st' ∧ SamePlace (K := K) st st')
    (h : m'.admits taskID = true) : m.admits taskID = true := by
  obtain ⟨st', hst', hpending, hfree, hfirst⟩ := (admits_iff taskID).mp h
  obtain ⟨st, hst, hstatus, hkind, hkey⟩ := htask st' hst' hpending
  refine (admits_iff taskID).mpr ⟨st, hst, hstatus ▸ hpending, ?_, ?_⟩
  · rwa [← hkind, ← hlimit, ← hrunning]
  · intro id other hid hp hk
    obtain ⟨other', hid', hstatus', hkind', hkey'⟩ := hkeep id other hid hp
    rw [← hkey, ← hkey']
    exact hfirst id other' hid' (hstatus'.trans hp) (hkind'.trans (hk.trans hkind.symm))

end Manager

end AllInOneBackup.LitePan.Upload
