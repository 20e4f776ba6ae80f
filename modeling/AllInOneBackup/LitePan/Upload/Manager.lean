import AllInOneBackup.LitePan.Upload.Queue

/-! The upload manager: its `runTask` goroutines, and the calls that create, pause, resume and
delete tasks, change the limit and stop the manager. Each section under `mu` is a turn, and so is
every `Broadcast`, `cancel` and `close` between two sections. `runCond.Wait` takes a ticket, and
whoever waits goes on once there has been a later broadcast. -/

namespace AllInOneBackup.LitePan.Upload

open Concurrency

variable {K : Type} [LinearOrder K]

/-! ### Goroutines -/

/-- A run of `runTask`: its task, the channel it closes and its context. -/
structure Run (K : Type) where
  taskID : K
  done : ℕ
  ctx : ℕ

/-- Where a goroutine stands. From `persisting` on they are callers of the manager: `createBatch`
before it has persisted its tasks, `Resume` before its second section, `pause` and
`stopTaskForDelete` before the cancel, and `Delete` waiting for the run and before `popTask`. -/
inductive Goroutine (K : Type)
  | starting (taskID : K)
  | gate (r : Run K)
  | acquiring (r : Run K)
  | waiting (r : Run K) (ticket : ℕ)
  | holding (kind : SlotKind) (r : Run K)
  | executing (kind : SlotKind) (r : Run K)
  | finishing (kind : SlotKind) (r : Run K) (status : Status)
  | releasing (kind : SlotKind) (r : Run K) (again : Bool)
  | exiting (r : Run K)
  | closing (r : Run K)
  | broadcasting (next : Goroutine K)
  | persisting (taskIDs : List K)
  | resuming (taskID : K) (done : ℕ)
  | cancelling (cancel : Option ℕ) (next : Goroutine K)
  | awaiting (taskID : K) (done : ℕ)
  | popping (taskID : K)
  | ended

/-- A turn that goes on; a choice of `ctx.Done()` or of the timer; and how a call into the
repository, the file system, the source or the target drive ends. -/
inductive Outcome
  | turn
  | ctxDone
  | persistFailed
  | fileMissing
  | progress
  | failed
  | downloaded
  | uploaded (skipped : Bool)
  deriving DecidableEq

/-- An observer sees the slots granted. -/
inductive Event (K : Type)
  | granted (kind : SlotKind) (taskID : K)

abbrev UploadTurn (K : Type) := Turn (Manager K) (Goroutine K) (Event K)

abbrev UploadEffect (K : Type) := Effect (Manager K) (Goroutine K) (Event K)

abbrev UploadPool (K : Type) := Pool (Manager K) (Goroutine K) (Event K)

/-! ### `runTask` -/

namespace Manager

variable (m : Manager K)

/-- One pass of the loop of `acquireRunSlot`. -/
def acquireRunSlot (r : Run K) : UploadTurn K :=
  match m.tasks.lookup r.taskID with
  | none => { shared := m, task := .exiting r }
  | some st =>
    if m.stopping ∨ st.runDone ≠ r.done ∨ st.status ≠ .pending then
      { shared := m, task := .exiting r }
    else if m.admits r.taskID then
      { shared := m.grant r.taskID st.slotKind r.ctx
        task := .holding st.slotKind r
        seen := [.granted st.slotKind r.taskID] }
    else { shared := m, task := .waiting r m.broadcasts }

/-- The patch of `executeUpload` and of `executeCrossTransferDownload` that makes a task run. -/
def start (kind : SlotKind) (taskID : K) : Manager K :=
  m.patch taskID fun st => match kind with
    | .upload => { st with status := .running, phase := .uploading }
    | .download => { st with status := .running, phase := .downloading }

/-- `updateProgress` where it emits, and `updateDownloadProgress`. -/
def updateProgress (kind : SlotKind) (taskID : K) : Manager K :=
  m.patch taskID fun st => match kind with
    | .upload => { st with status := .running, phase := .uploading }
    | .download =>
      if st.status.isCompleted then st
      else { st with status := .running, phase := .downloading }

/-- The patches at the end of `executeUpload` and `finishCrossTransferDownloadError`. -/
def finish (kind : SlotKind) (taskID : K) (status : Status) : Manager K :=
  m.patch taskID fun st => match kind with
    | .upload =>
      if status.isCompleted then { st with status := status, phase := .uploading }
      else { st with status := status }
    | .download => { st with status := status, phase := .downloading }

/-- The patch of `failTask`, and `markMissingLocalFileFailed`. -/
def failTask (taskID : K) : Manager K := m.patch taskID fun st => { st with status := .failed }

/-- The patch of `finishCrossTransferDownloadSuccess`. -/
def finishDownload (r : Run K) : Manager K :=
  m.patch r.taskID fun st =>
    if m.ctxErr r.ctx then st else { st with status := .pending, phase := .uploading }

/-- The status that a transfer which returned an error leaves behind. -/
def errorStatus (st : TaskState) (ctx : ℕ) : Status :=
  if m.ctxErr ctx then if st.cancelMode = some .pause then .paused else .canceled else .failed

/-- `cancel = nil` in the deferred function of `runTask`. -/
def clearCancel (r : Run K) : Manager K :=
  m.patch r.taskID fun st => if st.runDone = r.done then { st with cancel := none } else st

/-! ### Calls -/

/-- What `CreateParams` and the clock give a new task, with the id that `newTaskID` draws. -/
structure CreateParams (K : Type) where
  taskID : K
  sourceType : Option SourceType
  phase : Option Phase
  now : ℚ

def taskSourceType (sourceType : Option SourceType) : SourceType := sourceType.getD .manual

def taskPhase (sourceType : SourceType) (phase : Option Phase) : Phase :=
  phase.getD (if sourceType = .crossTransfer then .downloading else .uploading)

/-- `newTaskStateLocked` and `addTaskLocked`. -/
def addTask (p : CreateParams K) : Manager K :=
  { m with
    tasks := m.tasks.insert p.taskID
      { status := .pending
        sourceType := taskSourceType p.sourceType
        phase := taskPhase (taskSourceType p.sourceType) p.phase
        queueOrder := m.queueOrder + 1
        createdAt := p.now
        runDone := m.chans }
    queueOrder := m.queueOrder + 1
    chans := m.chans + 1 }

/-- The second section of `Resume`, for a task that can be resumed. -/
def resumeTask (taskID : K) : Manager K :=
  { m.patch taskID fun st =>
      { st with
        status := .pending
        queueOrder := m.queueOrder + 1
        resumePriority := true
        cancelMode := none
        runDone := m.chans } with
    queueOrder := m.queueOrder + 1
    chans := m.chans + 1 }

def pauseTask (taskID : K) : Manager K :=
  m.patch taskID fun st =>
    { st with status := .paused, resumePriority := false, cancelMode := some .pause }

/-- The section of `stopTaskForDelete`, for a run that has to be waited for. -/
def stopTask (taskID : K) : Manager K :=
  m.patch taskID fun st =>
    { st with
      status := if st.status.isActive then .canceled else st.status
      cancelMode := some .delete }

/-- The section of `Stop`. -/
def stop : Manager K :=
  if m.stopping then m
  else
    { m.tasks.keys.foldl (fun m taskID => m.patch taskID fun st =>
        if st.status = .running then { st with cancelMode := some .pause } else st) m with
      stopping := true }

def defaultLimit : ℕ := 3

def refreshConcurrencyLimit (v : ℤ) : Manager K :=
  { m with limit := if v > 0 then v.toNat else defaultLimit }

end Manager

open Manager

def resume (m : Manager K) : Goroutine K → Outcome → Option (UploadTurn K)
  | .starting taskID, .turn => some <| match m.tasks.lookup taskID with
    | none => { shared := m, task := .ended }
    | some st =>
      { shared := { m with ctxs := m.ctxs + 1 }, task := .gate ⟨taskID, st.runDone, m.ctxs⟩ }
  | .gate r, .turn => some { shared := m, task := .acquiring r }
  -- nobody else has the cancel of the run yet, so its context ends with `runCtx` only
  | .gate r, .ctxDone => if m.stopping then some { shared := m, task := .exiting r } else none
  | .acquiring r, .turn => some (m.acquireRunSlot r)
  | .waiting r ticket, .turn => if ticket < m.broadcasts then some (m.acquireRunSlot r) else none
  | .holding kind r, .turn => some <| match m.tasks.lookup r.taskID with
    | none => { shared := m, task := .releasing kind r false }
    | some st =>
      if m.ctxErr r.ctx ∨ st.status ≠ .pending then
        { shared := m, task := .releasing kind r false }
      else { shared := m.start kind r.taskID, task := .executing kind r }
  | .holding .download r, .failed =>
    some { shared := m.failTask r.taskID, task := .releasing .download r false }
  | .executing kind r, .progress =>
    some { shared := m.updateProgress kind r.taskID, task := .executing kind r }
  | .executing kind r, .failed => some <| match m.tasks.lookup r.taskID with
    | none => { shared := m, task := .releasing kind r false }
    | some st => { shared := m, task := .finishing kind r (m.errorStatus st r.ctx) }
  | .executing .upload r, .uploaded skipped => some <| match m.tasks.lookup r.taskID with
    | none => { shared := m, task := .releasing .upload r false }
    | some _ =>
      { shared := m, task := .finishing .upload r (if skipped then .skipped else .success) }
  | .executing .download r, .downloaded =>
    some { shared := m.finishDownload r, task := .releasing .download r true }
  | .finishing kind r status, .turn =>
    some { shared := m.finish kind r.taskID status, task := .releasing kind r false }
  | .releasing kind r again, .turn => some
    { shared := m.releaseSlot kind
      task := .broadcasting (if again then .acquiring r else .exiting r) }
  | .exiting r, .turn => some { shared := m.clearCancel r, task := .closing r }
  | .closing r, .turn =>
    some { shared := { m with closed := r.done :: m.closed }, task := .ended }
  | .broadcasting next, .turn =>
    some { shared := { m with broadcasts := m.broadcasts + 1 }, task := next }
  | .persisting taskIDs, .turn =>
    some { shared := m, task := .ended, spawned := taskIDs.map .starting }
  | .persisting taskIDs, .persistFailed =>
    some { shared := taskIDs.foldl removeTask m, task := .ended }
  | .resuming _ _, .ctxDone => some { shared := m, task := .ended }
  | .resuming taskID done, o => if done ∈ m.closed then
      match m.tasks.lookup taskID, o with
      | some st, .turn => some <|
        if m.stopping ∨ ¬st.status.isResumable then { shared := m, task := .ended }
        else { shared := m.resumeTask taskID, task := .starting taskID }
      | some st, .fileMissing => some <|
        if m.stopping ∨ ¬st.status.isResumable then { shared := m, task := .ended }
        else { shared := m.failTask taskID, task := .ended }
      | none, .turn => some { shared := m, task := .ended }
      | _, _ => none
    else none
  | .cancelling cancel next, .turn =>
    some { shared := { m with cancelled := cancel.toList ++ m.cancelled }, task := .broadcasting next }
  | .awaiting taskID done, .turn =>
    if done ∈ m.closed then some { shared := m, task := .popping taskID } else none
  | .awaiting _ _, .ctxDone => some { shared := m, task := .ended }
  | .popping taskID, .turn => some { shared := m.removeTask taskID, task := .ended }
  | _, _ => none

/-- The beginning of a call of the manager. -/
inductive Call (K : Type)
  | createBatch (params : List (CreateParams K))
  | pause (taskID : K)
  | resume (taskID : K)
  | delete (taskID : K)
  | refreshConcurrencyLimit (v : ℤ)
  | stop

/-- A new task's id is drawn from 64 random bits, and no task has it yet. -/
def event (m : Manager K) : Call K → Option (UploadEffect K)
  | .createBatch params =>
    if (params.map CreateParams.taskID).Nodup ∧
        ∀ p ∈ params, m.tasks.lookup p.taskID = none then
      some <| if m.stopping then { shared := m }
        else
          { shared := params.foldl addTask m
            spawned := [.persisting (params.map CreateParams.taskID)] }
    else none
  | .pause taskID => some <| match m.tasks.lookup taskID with
    | none => { shared := m }
    | some st =>
      if m.stopping ∨ ¬st.status.isActive then { shared := m }
      else { shared := m.pauseTask taskID, spawned := [.cancelling st.cancel .ended] }
  | .resume taskID => some <| match m.tasks.lookup taskID with
    | none => { shared := m }
    | some st =>
      if st.status.isResumable then { shared := m, spawned := [.resuming taskID st.runDone] }
      else { shared := m }
  | .delete taskID => some <| match m.tasks.lookup taskID with
    | none => { shared := m, spawned := [.popping taskID] }
    | some st =>
      if ¬st.status.isActive ∧ st.cancel = none ∨ st.runDone ∈ m.closed then
        { shared := m, spawned := [.popping taskID] }
      else
        { shared := m.stopTask taskID
          spawned := [.cancelling st.cancel (.awaiting taskID st.runDone)] }
  | .refreshConcurrencyLimit v =>
    some { shared := m.refreshConcurrencyLimit v, spawned := [.broadcasting .ended] }
  | .stop => some { shared := m.stop, spawned := [.broadcasting .ended] }

def system : System (Manager K) (Goroutine K) (Event K) Outcome (Call K) := ⟨resume, event⟩

/-! ### What the calls leave -/

theorem lookup_removeTask {m : Manager K} {taskID id : K} {st : TaskState}
    (h : (m.removeTask taskID).tasks.lookup id = some st) :
    id ≠ taskID ∧ m.tasks.lookup id = some st := by
  by_cases hid : id = taskID
  · subst hid
    exact absurd ((AList.lookup_erase id m.tasks).symm.trans h) (by simp)
  · exact ⟨hid, (AList.lookup_erase_ne hid).symm.trans h⟩

/-- The rollback of `createBatch` leaves the other tasks. -/
theorem foldl_removeTask (m : Manager K) (taskIDs : List K) :
    ∃ tasks, taskIDs.foldl removeTask m = { m with tasks } ∧
      ∀ id st, tasks.lookup id = some st → id ∉ taskIDs ∧ m.tasks.lookup id = some st := by
  induction taskIDs generalizing m with
  | nil => exact ⟨m.tasks, rfl, by simp⟩
  | cons taskID taskIDs ih =>
    obtain ⟨tasks, heq, hlookup⟩ := ih (m.removeTask taskID)
    refine ⟨tasks, heq, fun id st h => ?_⟩
    obtain ⟨hnot, h⟩ := hlookup id st h
    obtain ⟨hne, h⟩ := lookup_removeTask h
    exact ⟨by simp [hne, hnot], h⟩

/-- The new tasks of `createBatch` come beside the old ones, with channels of their own. -/
theorem foldl_addTask (m : Manager K) (params : List (CreateParams K)) :
    let m' := params.foldl addTask m
    m.chans ≤ m'.chans ∧ m'.broadcasts = m.broadcasts ∧ m'.stopping = m.stopping ∧
      m'.limit = m.limit ∧ m'.running = m.running ∧
      (∀ id, id ∉ params.map CreateParams.taskID → m'.tasks.lookup id = m.tasks.lookup id) ∧
      ∀ id ∈ params.map CreateParams.taskID, ∀ st, m'.tasks.lookup id = some st →
        m.chans ≤ st.runDone ∧ st.runDone < m'.chans := by
  induction params generalizing m with
  | nil => simp
  | cons p params ih =>
    obtain ⟨hchans, hbroadcasts, hstop, hlimit, hrunning, hold, hnew⟩ := ih (m.addTask p)
    have hchans' : m.chans < (params.foldl addTask (m.addTask p)).chans := hchans
    refine ⟨hchans'.le, hbroadcasts, hstop, hlimit, hrunning, fun id hid => ?_,
      fun id hid st hst => ?_⟩
    · obtain ⟨hne, hid⟩ : id ≠ p.taskID ∧ id ∉ params.map CreateParams.taskID := by
        simpa using hid
      exact (hold id hid).trans (AList.lookup_insert_ne hne)
    · by_cases hmem : id ∈ params.map CreateParams.taskID
      · obtain ⟨hle, hlt⟩ := hnew id hmem st hst
        exact ⟨(Nat.le_succ _).trans hle, hlt⟩
      · obtain rfl : id = p.taskID := by simpa [hmem] using hid
        have hst' := (hold _ hmem).symm.trans hst
        rw [addTask, AList.lookup_insert] at hst'
        obtain rfl := Option.some.inj hst'
        exact ⟨le_rfl, hchans'⟩

/-- `Stop` leaves every task its run and its status. -/
theorem stop_eq (m : Manager K) : ∃ tasks, m.stop = { m with tasks, stopping := true } ∧
    ∀ id st', tasks.lookup id = some st' → ∃ st, m.tasks.lookup id = some st ∧
      st'.runDone = st.runDone ∧ st'.status = st.status := by
  unfold stop
  split_ifs with hstop
  · exact ⟨m.tasks, by rw [← hstop], fun id st h => ⟨st, h, rfl, rfl⟩⟩
  suffices hfold : ∀ (ids : List K) (m : Manager K), ∃ tasks,
      ids.foldl (fun m taskID => m.patch taskID fun st =>
        if st.status = .running then { st with cancelMode := some .pause } else st) m =
        { m with tasks } ∧
      ∀ id st', tasks.lookup id = some st' → ∃ st, m.tasks.lookup id = some st ∧
        st'.runDone = st.runDone ∧ st'.status = st.status by
    obtain ⟨tasks, heq, hlookup⟩ := hfold m.tasks.keys m
    exact ⟨tasks, by rw [heq], hlookup⟩
  intro ids
  induction ids with
  | nil => exact fun m => ⟨m.tasks, rfl, fun id st h => ⟨st, h, rfl, rfl⟩⟩
  | cons taskID ids ih =>
    intro m
    let fn : TaskState → TaskState := fun st =>
      if st.status = .running then { st with cancelMode := some .pause } else st
    have hfn : ∀ st, (fn st).runDone = st.runDone ∧ (fn st).status = st.status := by
      intro st
      simp only [fn]
      split_ifs <;> exact ⟨rfl, rfl⟩
    obtain ⟨tasks, heq, hlookup⟩ := ih (m.patch taskID fn)
    refine ⟨tasks, heq.trans ?_, fun id st' h => ?_⟩
    · unfold patch
      split <;> rfl
    · obtain ⟨st, hst, hdone, hstatus⟩ := hlookup id st' h
      obtain ⟨old, hold, ⟨-, rfl⟩ | ⟨-, rfl⟩⟩ := lookup_patch_cases hst
      · exact ⟨old, hold, hdone.trans (hfn old).1, hstatus.trans (hfn old).2⟩
      · exact ⟨st, hold, hdone, hstatus⟩

theorem Status.ne_of_isResumable {status : Status} (h : status.isResumable = true) :
    status ≠ .pending ∧ status ≠ .running := by
  constructor <;> rintro rfl <;> cases h

/-- All that the second section of `Resume` can do. -/
theorem resuming_cases {m : Manager K} {taskID : K} {done : ℕ} {o : Outcome} {turn : UploadTurn K}
    (h : resume m (.resuming taskID done) o = some turn) :
    turn = { shared := m, task := .ended } ∨
    (done ∈ m.closed ∧ m.stopping = false ∧
      ∃ st, m.tasks.lookup taskID = some st ∧ st.status.isResumable = true) ∧
      (o = .turn ∧ turn = { shared := m.resumeTask taskID, task := .starting taskID } ∨
        turn = { shared := m.failTask taskID, task := .ended }) := by
  cases o with
  | ctxDone => exact .inl (Option.some.inj h).symm
  | turn =>
    obtain ⟨hclosed, h⟩ := Option.ite_none_right_eq_some.mp h
    cases hst : m.tasks.lookup taskID with
    | none =>
      rw [hst] at h
      exact .inl (Option.some.inj h).symm
    | some st =>
      simp only [hst, Option.some.injEq] at h
      split_ifs at h with hend
      · exact .inl h.symm
      · rw [not_or, Bool.not_eq_true, not_not] at hend
        exact .inr ⟨⟨hclosed, hend.1, st, rfl, hend.2⟩, .inl ⟨rfl, h.symm⟩⟩
  | fileMissing =>
    obtain ⟨hclosed, h⟩ := Option.ite_none_right_eq_some.mp h
    cases hst : m.tasks.lookup taskID with
    | none =>
      rw [hst] at h
      cases h
    | some st =>
      simp only [hst, Option.some.injEq] at h
      split_ifs at h with hend
      · exact .inl h.symm
      · rw [not_or, Bool.not_eq_true, not_not] at hend
        exact .inr ⟨⟨hclosed, hend.1, st, rfl, hend.2⟩, .inr h.symm⟩
  | _ =>
    obtain ⟨-, h⟩ := Option.ite_none_right_eq_some.mp h
    cases hst : m.tasks.lookup taskID <;> rw [hst] at h <;> cases h

/-! ### The start -/

/-- What the queue reads of an `UploadTaskRecord`, and whether the task needs a local file that
is not there. -/
structure Record (K : Type) where
  taskID : K
  status : Status
  sourceType : Option SourceType
  phase : Option Phase
  queueOrder : ℤ
  createdAt : ℚ
  requiredLocalFileMissing : Bool

/-- The status of a restored task. -/
def Record.restored (row : Record K) : Status :=
  let status := if row.status = .running then .paused else row.status
  if row.requiredLocalFileMissing ∧ ¬status.isCompleted then .failed else status

/-- One pass of the loop of `restoreTasks`. -/
def Manager.restoreTask (m : Manager K) (row : Record K) : Manager K :=
  { m with
    tasks := m.tasks.insert row.taskID
      { status := row.restored
        sourceType := taskSourceType row.sourceType
        phase := taskPhase (taskSourceType row.sourceType) row.phase
        queueOrder := row.queueOrder
        createdAt := row.createdAt
        runDone := m.chans }
    queueOrder := max row.queueOrder m.queueOrder
    chans := m.chans + 1
    closed := if row.restored = .pending then m.closed else m.chans :: m.closed }

/-- `NewManager`, with the setting of the limit and the rows of the repository. -/
def newManager (v : ℤ) (rows : List (Record K)) : UploadPool K where
  shared := rows.foldl restoreTask (refreshConcurrencyLimit { limit := defaultLimit } v)
  tasks := (rows.filter fun row => row.restored = .pending).map fun row => .starting row.taskID

theorem restoreTasks_keeps (m : Manager K) (rows : List (Record K)) :
    let m' := rows.foldl restoreTask m
    m.chans ≤ m'.chans ∧ ∀ id st, m'.tasks.lookup id = some st →
      m.tasks.lookup id = some st ∨ st.runDone < m'.chans ∧
        (st.status = .pending → ∃ row ∈ rows, row.restored = .pending ∧ row.taskID = id) := by
  induction rows generalizing m with
  | nil => exact ⟨le_rfl, fun id st h => .inl h⟩
  | cons row rows ih =>
    obtain ⟨hchans, hlookup⟩ := ih (m.restoreTask row)
    have hlt : m.chans < (rows.foldl restoreTask (m.restoreTask row)).chans := hchans
    refine ⟨hlt.le, fun id st hst => ?_⟩
    obtain hst | ⟨hdone, hrow⟩ := hlookup id st hst
    · by_cases hid : id = row.taskID
      · subst hid
        rw [restoreTask, AList.lookup_insert] at hst
        obtain rfl := Option.some.inj hst
        exact .inr ⟨hlt, fun hp => ⟨row, List.mem_cons_self, hp, rfl⟩⟩
      · exact .inl ((AList.lookup_insert_ne hid).symm.trans hst)
    · refine .inr ⟨hdone, fun hp => ?_⟩
      obtain ⟨row', hmem, hrow'⟩ := hrow hp
      exact ⟨row', List.mem_cons_of_mem _ hmem, hrow'⟩

end AllInOneBackup.LitePan.Upload
